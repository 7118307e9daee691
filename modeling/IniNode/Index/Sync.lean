import IniNode.Index.Sound
import IniNode.Index.Views
/-!
# Following one chain

What the steps of a plain sync leave: headers that each extend the header tip, and blocks of that chain that
are connected one by one. `Synced` describes the state after any number of both, so that longer runs can be
continued from it without replaying them.
-/

open IniNode.Lib List Option

namespace IniNode.BlockChain

open BlockIndex

variable {params : ChainParams} {checkpoints : List Checkpoint} {b0 b b' : BlockChain} {off n m k : Nat}

/-! ## One more header on the tip -/

theorem extendHeader_tip {p t : Ptr} (hown : b.ownHeader = none) (htip : b.bi.bestHeader.tip = some t)
    (hparent : (b.bi.mem p).parentHash = (b.bi.mem t).hash) :
    b.extendHeader p = { b with bi := { b.bi with bestHeader := b.bi.bestHeader.setTip b.bi.mem (some p) } } := by
  have hview : b.bestHeader = b.bi.bestHeader := by rw [bestHeader, hown, getD_none]
  unfold extendHeader
  simp only [hview, htip, hparent]
  unfold setHeaderTip
  simp [hown]

/-! ## The synced chain -/

/-- The address of the node at a height, when `off` other headers came first. -/
def mainPtr (off k : Nat) : Nat := if k = 0 then 0 else k + off

def mainHeader (off k : Nat) : BlockHeader := headerOn (mainPtr off (k - 1) + 1) (mainPtr off k)

def mainNodes (off n : Nat) : List (Option Ptr) := (range (n + 1)).map fun k => some (mainPtr off k)

/-- `n` headers were accepted since the state `b0` and `m` of their blocks connected. -/
structure Synced (b0 : BlockChain) (off n m : Nat) (b : BlockChain) : Prop where
  fresh : b.bi.fresh = n + off + 1
  pool : b.bi.pool = []
  node : ∀ k, 1 ≤ k → k ≤ n → (b.bi.mem (k + off)).ident = (k + off + 1, mainHeader off k, (k : Int)) ∧
    (b.bi.mem (k + off)).parent = some (mainPtr off (k - 1))
  side : ∀ p, p ≤ off → b.bi.mem p = b0.bi.mem p
  lookup : ∀ k, 1 ≤ k → k ≤ n → b.bi.lookupNode (k + off + 1) = some (k + off)
  lookup_other : ∀ x, (x ≤ off + 1 ∨ n + off + 1 < x) → b.bi.lookupNode x = b0.bi.lookupNode x
  header : b.bi.bestHeader = ⟨mainNodes off n, 0⟩
  chain : b.bi.bestChain = ⟨mainNodes off m, 0⟩
  evictCount : b.bi.evictCount = b0.bi.evictCount + m
  window : b.bi.windowSize = b0.bi.windowSize ∧ b.bi.ready = b0.bi.ready
  own : b.ownHeader = none
  rest : b.db = b0.db ∧ b.coldCache = b0.coldCache ∧ b.checkpointNode = b0.checkpointNode ∧
    b.nextCheckpoint = b0.nextCheckpoint

/-- What the sync starts from: the genesis block, and side headers with the lowest hashes. -/
structure SyncStart (off : Nat) (b0 : BlockChain) : Prop where
  synced : Synced b0 off 0 0 b0
  genesis : (b0.bi.mem 0).hash = 1 ∧ (b0.bi.mem 0).height = 0 ∧ b0.bi.lookupNode 1 = some 0
  free : ∀ x, off + 1 < x → b0.bi.lookupNode x = none

theorem Synced.start (hfresh : b0.bi.fresh = off + 1) (hpool : b0.bi.pool = [])
    (hheader : b0.bi.bestHeader = ⟨mainNodes off 0, 0⟩)
    (hchain : b0.bi.bestChain = ⟨mainNodes off 0, 0⟩) (hown : b0.ownHeader = none) : Synced b0 off 0 0 b0 := by
  refine ⟨by rwa [Nat.zero_add], hpool, fun k hk hk' => ?_, fun _ _ => rfl, fun k hk hk' => ?_, fun _ _ => rfl,
    hheader, hchain, rfl, ⟨rfl, rfl⟩, hown, rfl, rfl, rfl, rfl⟩ <;> omega

theorem mainPtr_pos (hk : 1 ≤ k) : mainPtr off k = k + off := if_neg (by omega)

theorem length_mainNodes (off n : Nat) : (mainNodes off n).length = n + 1 := by simp [mainNodes]

theorem getElem?_mainNodes (hk : k ≤ n) : (mainNodes off n)[k]? = some (some (mainPtr off k)) := by
  rw [mainNodes, getElem?_map, getElem?_range (by omega)]
  rfl

theorem mainNodes_succ (off n : Nat) : mainNodes off (n + 1) = mainNodes off n ++ [some (mainPtr off (n + 1))] := by
  simp [mainNodes, range_succ]

theorem tip_mainNodes (off n : Nat) : (⟨mainNodes off n, 0⟩ : ChainView).tip = some (mainPtr off n) := by
  rw [ChainView.tip]
  cases n with
  | zero => rfl
  | succ n => rw [mainNodes_succ, getLast?_concat]; rfl

theorem nodeByHeight_mainNodes (hk : k ≤ n) :
    (⟨mainNodes off n, 0⟩ : ChainView).nodeByHeight k = some (mainPtr off k) := by
  refine ChainView.nodeByHeight_eq_some.2 ⟨Int.natCast_nonneg k, ?_⟩
  exact getElem?_mainNodes hk

theorem setTip_mainNodes {mem : Memory} {p : Ptr} (hparent : (mem p).parent = some (mainPtr off n))
    (hheight : (mem p).height = ((n + 1 : Nat) : Int)) (htip : (mem (mainPtr off n)).height = n) :
    ChainView.setTip mem ⟨mainNodes off n, 0⟩ (some p) = ⟨mainNodes off n ++ [some p], 0⟩ := by
  rw [ChainView.setTip_extend]
  · rw [hheight, length_mainNodes]
    simp
  · intro t ht
    obtain rfl := mem_unique hparent ht
    refine .inr ?_
    rw [htip]
    exact getElem?_mainNodes (Nat.le_refl n)

def withHeader (off n : Nat) (b : BlockChain) : BlockChain :=
  b.makeNode nonceParams (mainHeader off (n + 1)) (mainPtr off n) none { headerStored := true }

section Start
variable (hst : SyncStart off b0)
include hst

theorem Synced.main (h : Synced b0 off n m b) (hk : k ≤ n) :
    (b.bi.mem (mainPtr off k)).hash = mainPtr off k + 1 ∧ (b.bi.mem (mainPtr off k)).height = k ∧
      b.bi.lookupNode (mainPtr off k + 1) = some (mainPtr off k) := by
  rcases Nat.eq_zero_or_pos k with rfl | hpos
  · obtain ⟨hhash, hheight, hlook⟩ := hst.genesis
    rw [show mainPtr off 0 = 0 from rfl, h.side 0 (Nat.zero_le _), h.lookup_other 1 (.inl (by omega))]
    exact ⟨hhash, hheight, hlook⟩
  · obtain ⟨hid, -⟩ := h.node k hpos hk
    rw [mainPtr_pos hpos]
    exact ⟨congrArg (·.1) hid, congrArg (·.2.2) hid, h.lookup k hpos hk⟩

theorem Synced.header_step (h : Synced b0 off n m b) (checkpoints : List Checkpoint) : ∃ b',
    b.step nonceParams checkpoints (.header (mainHeader off (n + 1)) none) = some b' ∧ Synced b0 off (n + 1) m b' ∧
      (∀ p, p ∈ b'.bi.dirty ↔ p = n + 1 + off ∨ p ∈ b.bi.dirty) ∧ b'.queue = b.queue := by
  have hp : b.bi.newPtr none = n + 1 + off := by
    rw [newPtr, h.fresh]
    exact Nat.add_right_comm n off 1
  obtain ⟨htiphash, htipheight, hprev⟩ := h.main hst (Nat.le_refl n)
  have hnew : b.bi.lookupNode (n + 1 + off + 1) = none := by
    rw [h.lookup_other _ (.inr (by omega)), hst.free _ (by omega)]
  have hptr : mainPtr off n ≠ n + 1 + off := by
    unfold mainPtr
    split <;> omega
  have hself : (withHeader off n b).bi.mem _ = _ := makeNode_mem_self
  have hne : ∀ q, q ≠ n + 1 + off → (withHeader off n b).bi.mem q = b.bi.mem q :=
    fun q hq => makeNode_mem_ne (hp ▸ hq)
  have hlook : ∀ x, (withHeader off n b).bi.lookupNode x =
      if x = n + 1 + off + 1 then some (b.bi.newPtr none) else b.bi.lookupNode x := lookupNode_makeNode
  rw [hp] at hself hlook
  have hmemtip := hne _ hptr
  have hparent : ((withHeader off n b).bi.mem (n + 1 + off)).parent = some (mainPtr off n) := by rw [hself]
  have hheight : ((withHeader off n b).bi.mem (n + 1 + off)).height = ((n + 1 : Nat) : Int) := by
    rw [hself, htipheight]
    rfl
  have hview : (withHeader off n b).bi.bestHeader = ⟨mainNodes off n, 0⟩ := h.header
  have hset : (withHeader off n b).bi.bestHeader.setTip (withHeader off n b).bi.mem (some (n + 1 + off)) =
      ⟨mainNodes off (n + 1), 0⟩ := by
    rw [hview, setTip_mainNodes hparent hheight (by rw [hmemtip, htipheight]), mainNodes_succ,
      mainPtr_pos (Nat.le_add_left 1 n)]
  have hext : (withHeader off n b).extendHeader (n + 1 + off) =
      { withHeader off n b with bi := { (withHeader off n b).bi with bestHeader := ⟨mainNodes off (n + 1), 0⟩ } } := by
    have htip : (withHeader off n b).bi.bestHeader.tip = some (mainPtr off n) := by rw [hview, tip_mainNodes]
    rw [extendHeader_tip (show (withHeader off n b).ownHeader = none from h.own) htip
      (by rw [hself, hmemtip, htiphash]; rfl), hset]
  obtain ⟨count, hcount⟩ := countHeader_eq
    { withHeader off n b with bi := { (withHeader off n b).bi with bestHeader := ⟨mainNodes off (n + 1), 0⟩ } }
  have hstep : b.step nonceParams checkpoints (.header (mainHeader off (n + 1)) none) =
      some ((withHeader off n b).extendHeader (n + 1 + off)).countHeader.1 := by
    rw [step, acceptHeader, show (mainHeader off (n + 1)).prevBlock = mainPtr off n + 1 from rfl, hprev]
    simp only [show nonceParams.blockHash (mainHeader off (n + 1)) = n + 1 + off + 1 from rfl, hnew, hp]
    rfl
  rw [hstep, hext, hcount]
  refine ⟨_, rfl, ⟨?_, ?_, fun k hk hkn => ?_, fun p hp => ?_, fun k hk hkn => ?_, fun x hx => ?_, rfl, h.chain,
    h.evictCount, h.window, h.own, h.rest⟩, fun p => ?_, rfl⟩
  · show b.bi.fresh + 1 = n + 1 + off + 1
    rw [h.fresh, Nat.add_right_comm n off 1]
  · show b.bi.pool.erase _ = []
    rw [h.pool]
    rfl
  · rcases Nat.lt_or_eq_of_le hkn with hlt | rfl
    · rw [hne (k + off) (by omega)]
      exact h.node k hk (by omega)
    · refine ⟨?_, hparent⟩
      rw [← hheight, hself]
      rfl
  · exact (hne p (by omega)).trans (h.side p hp)
  · refine (hlook _).trans ?_
    rcases Nat.lt_or_eq_of_le hkn with hlt | rfl
    · rw [if_neg (Nat.ne_of_lt (by omega))]
      exact h.lookup k hk (by omega)
    · exact if_pos rfl
  · have hxne : x ≠ n + 1 + off + 1 := by
      rintro rfl
      omega
    refine (hlook x).trans ?_
    rw [if_neg hxne]
    exact h.lookup_other x (by omega)
  · rw [← hp]
    exact mem_dirty_makeNode

theorem Synced.connect_step (h : Synced b0 off n m b) (hm : m < n)
    (hcount : b0.bi.evictCount + m + 1 < blockFlushBatchSize)
    (params : ChainParams) (checkpoints : List Checkpoint) (item : WriteItem) : ∃ b',
      b.step params checkpoints (.connect (mainPtr off (m + 1) + 1) item true) = some b' ∧
      Synced b0 off n (m + 1) b' := by
  obtain ⟨htiphash, htipheight, -⟩ := h.main hst (Nat.le_of_lt hm)
  obtain ⟨-, hheight, hlook⟩ := h.main hst (Nat.succ_le_of_lt hm)
  have htip : b.bi.bestChain.tip = some (mainPtr off m) := by rw [h.chain, tip_mainNodes]
  obtain ⟨hid, hparent⟩ := h.node (m + 1) (Nat.le_add_left 1 m) hm
  rw [← mainPtr_pos (Nat.le_add_left 1 m)] at hid hparent
  have hheader : (b.bi.mem (mainPtr off (m + 1))).header = mainHeader off (m + 1) := congrArg (fun v => v.2.1) hid
  have hevicts : b.bi.evicts false = false := by
    rw [evicts, Bool.false_or, h.evictCount, decide_eq_false (by omega)]
  have hfinish : b.finishFlush false =
      { b with bi := { b.bi with dirty := [], evictCount := b0.bi.evictCount + m + 1 } } := by
    rw [BlockChain.finishFlush, hevicts, BlockIndex.finishFlush, if_neg (by simp), if_neg]
    · simp [h.evictCount]
    · rw [h.evictCount]
      exact Nat.not_le_of_lt hcount
  have hset : b.bi.bestChain.setTip b.bi.mem (some (mainPtr off (m + 1))) = ⟨mainNodes off (m + 1), 0⟩ := by
    rw [Nat.add_sub_cancel] at hparent
    rw [h.chain, setTip_mainNodes hparent hheight htipheight, mainNodes_succ]
  refine ⟨b.connected (mainPtr off (m + 1)) (mainPtr off (m + 1) + 1) item, ?_, ?_⟩
  · rw [step, connectBlock, hlook, htip]
    simp [BlockNode.parentHash, hheader, htiphash, mainHeader, headerOn]
  · rw [connected, hfinish, setChainTip]
    simp only [hset]
    exact { h with chain := rfl, evictCount := rfl }

/-! ## Runs of them -/

def headerRun (off n : Nat) : List ChainStep := (range n).map fun k => .header (mainHeader off (k + 1)) none

def connectRun (off m : Nat) (item : WriteItem) : List ChainStep :=
  (range m).map fun k => .connect (mainPtr off (k + 1) + 1) item true

/-- The headers accepted so far. -/
structure KnownTo (off n : Nat) (b : BlockChain) : Prop where
  genesis : (b.known 1).isSome
  free : ∀ x, n + off + 1 < x → b.known x = none
  header : ∀ k, 1 ≤ k → k ≤ n → b.known (k + off + 1) = some (mainHeader off k, (k : Int))

theorem Synced.header_known (h : Synced b0 off n m b)
    (hstep : b.step nonceParams checkpoints (.header (mainHeader off (n + 1)) none) = some b') :
    b'.known = b.known.write ⟨n + 1 + off + 1, some (mainHeader off (n + 1), ((n + 1 : Nat) : Int))⟩ := by
  obtain ⟨-, hheight, hmain⟩ := h.main hst (Nat.le_refl n)
  have hfree : b.bi.lookupNode (n + 1 + off + 1) = none := by
    rw [h.lookup_other _ (.inr (by omega)), hst.free _ (by omega)]
  cases step_move hstep with
  | headerKnown _ hp | headerOld _ hp => cases hfree.symm.trans hp
  | headerNew hprev =>
    obtain rfl := mem_unique hmain hprev
    obtain ⟨view, own, count, heq⟩ := (headerMoved_extendHeader (b.makeNode nonceParams (mainHeader off (n + 1))
      (mainPtr off n) none { headerStored := true }) (b.bi.newPtr none)).countHeader
    rw [heq]
    change b.known.write ⟨_, some (_, (b.bi.mem (mainPtr off n)).height + 1)⟩ = _
    rw [hheight]
    rfl

theorem Synced.knownTo (h : Synced b0 off n m b) (hto : KnownTo off n b)
    (hstep : b.step nonceParams checkpoints (.header (mainHeader off (n + 1)) none) = some b') : KnownTo off (n + 1) b' := by
  have hold : ∀ {x}, x ≠ n + 1 + off + 1 → b'.known x = b.known x := by
    intro x hx
    rw [h.header_known hst hstep, Store.write_apply, if_neg hx]
  refine ⟨?_, fun x hx => ?_, fun k hpos hk => ?_⟩
  · rw [hold (by omega)]
    exact hto.genesis
  · rw [hold (Nat.ne_of_gt hx)]
    exact hto.free x (by omega)
  · rcases Nat.lt_or_eq_of_le hk with hlt | rfl
    · rw [hold (by omega)]
      exact hto.header k hpos (by omega)
    · rw [h.header_known hst hstep, Store.write_apply]
      exact if_pos rfl

theorem Synced.headers (h : Synced b0 off n m b) (checkpoints : List Checkpoint) (j : Nat) : ∃ b',
    run (step nonceParams checkpoints) b ((range j).map fun k => .header (mainHeader off (n + k + 1)) none) = some b' ∧
      Synced b0 off (n + j) m b' ∧ (∀ k, n < k → k ≤ n + j → k + off ∈ b'.bi.dirty) ∧
      b'.queue = b.queue ∧ (KnownTo off n b → KnownTo off (n + j) b') := by
  induction j with
  | zero => exact ⟨b, rfl, h, fun k hlt hle => absurd hle (Nat.not_le_of_lt hlt), rfl, id⟩
  | succ j ih =>
    obtain ⟨c, hrun, hc, hdirty, hqueue, hknown⟩ := ih
    obtain ⟨b', hstep, hb', hnew, hqueue'⟩ := hc.header_step hst checkpoints
    refine ⟨b', ?_, hb', fun k hlt hle => (hnew _).2 ?_, hqueue'.trans hqueue,
      fun hto => hc.knownTo hst (hknown hto) hstep⟩
    · rw [range_succ, map_append, run_append]
      simp [hrun, run, hstep]
    · rcases Nat.lt_or_eq_of_le hle with hle | rfl
      · exact .inr (hdirty k hlt (Nat.le_of_lt_succ hle))
      · exact .inl rfl

theorem SyncStart.headers (checkpoints : List Checkpoint) (n : Nat) :
    ∃ b, run (step nonceParams checkpoints) b0 (headerRun off n) = some b ∧
    Synced b0 off n 0 b ∧ (∀ k, 0 < k → k ≤ n → k + off ∈ b.bi.dirty) ∧ b.queue = b0.queue ∧
    (KnownTo off 0 b0 → KnownTo off n b) := by
  obtain ⟨b, hrun, hb⟩ := hst.synced.headers hst checkpoints n
  simp only [Nat.zero_add] at hrun hb
  exact ⟨b, hrun, hb⟩

theorem Synced.connects (h : Synced b0 off n 0 b) (params : ChainParams) (checkpoints : List Checkpoint) (item : WriteItem)
    {m : Nat} (hm : m ≤ n) (hcount : b0.bi.evictCount + m < blockFlushBatchSize) :
    ∃ b', run (step params checkpoints) b (connectRun off m item) = some b' ∧ Synced b0 off n m b' := by
  induction m with
  | zero => exact ⟨b, rfl, h⟩
  | succ m ih =>
    obtain ⟨c, hrun, hc⟩ := ih (by omega) (by omega)
    obtain ⟨b', hstep, hb'⟩ := hc.connect_step hst hm hcount params checkpoints item
    refine ⟨b', ?_, hb'⟩
    rw [connectRun, range_succ, map_append, run_append]
    rw [connectRun] at hrun
    simp [hrun, run, hstep]

end Start

/-! ## A flush that evicts -/

/-- With a window of one block and only genesis connected, a forced flush prunes the header view below height 2. The
blocks up to that height are near the tip of the best chain and stay in the index. -/
theorem Synced.flush (hst : SyncStart off b0) (h : Synced b0 off 524 0 b)
    (hwin : b0.bi.windowSize = 1 ∧ b0.bi.ready = true) (hdirty : b.bi.dirty ≠ []) :
    b.flushToDB true true = { b with db := AsyncChain.flushToDB b.db b.bi.snapshotDirty b.headerState }.finishFlush true ∧
      (b.flushToDB true true).bestHeader = (⟨mainNodes off 524, 0⟩ : ChainView).pruneBelow 2 ∧
      (b.flushToDB true true).bestHeader.tip = some (mainPtr off 524) ∧
      (∀ p, ((b.flushToDB true true).bi.mem p).data = (b.bi.mem p).data) ∧
      ∀ {x p}, b.bi.lookupNode x = some p → (b.bi.mem p).height = 0 ∨ (b.bi.mem p).height = 1 →
        (b.flushToDB true true).bi.lookupNode x = some p := by
  have hflush : b.flushToDB true true =
      { b with db := AsyncChain.flushToDB b.db b.bi.snapshotDirty b.headerState }.finishFlush true := by
    rw [flushToDB]
    simp [hdirty]
  have hbounds : b.bi.bounds = some ⟨0, 2, -1, 1⟩ := by
    obtain ⟨-, htip, -⟩ := h.main hst (Nat.le_refl 524)
    obtain ⟨-, hgenesis, -⟩ := h.main hst (Nat.zero_le 524)
    have hheader : b.bi.tipHeight b.bi.bestHeader = 524 := by
      rw [tipHeight, h.header, tip_mainNodes]
      exact htip
    have hchain : b.bi.tipHeight b.bi.bestChain = 0 := by
      rw [h.chain]
      exact hgenesis
    simp only [bounds, windowBoundary, hheader, hchain, h.window.1, h.window.2, hwin.1, hwin.2]
    rfl
  have hview : (b.flushToDB true true).bestHeader = (⟨mainNodes off 524, 0⟩ : ChainView).pruneBelow 2 := by
    rw [hflush, h.own, ← h.header]
    show (b.bi.finishFlush true).bestHeader = _
    rw [BlockIndex.finishFlush, if_pos rfl, evictWindow,
      show bounds { b.bi with dirty := [] } = some ⟨0, 2, -1, 1⟩ from hbounds]
  refine ⟨hflush, hview, ?_, ?_, ?_⟩
  · rw [hview, ChainView.tip_pruneBelow, tip_mainNodes]
    rw [length_mainNodes]
    exact (by decide : (2 : Int) < 0 + 525)
  · intro p
    rw [hflush]
    exact finishFlush_data b.bi true p
  · intro x p hp hlow
    rw [hflush]
    refine (lookupNode_finishFlush b.bi true x p).2 ⟨hp, ?_⟩
    rcases finishFlush_views b.bi true with ⟨-, -, hnone⟩ | ⟨bd, hbd, -, -, hout⟩
    · rw [hnone]
      exact not_mem_nil
    · obtain rfl := mem_unique hbounds hbd
      refine fun hmem => (hout p hmem).2.2 ?_
      rcases hlow with hlow | hlow <;> rw [hlow] <;> decide

theorem syncStart_create (windowSize : Int) : SyncStart 0 (create nonceParams (headerOn 0 0) 1 windowSize) where
  synced := .start rfl rfl rfl rfl rfl
  genesis := ⟨rfl, rfl, rfl⟩
  free _ hx := AList.lookup_insert_ne (Ne.symm (Nat.ne_of_lt hx))

/-- An item of a block that changes no output. -/
def plainItem : WriteItem where
  height := 0
  block := ⟨0, headerOn 0 0, []⟩
  nodeRows := []
  bestTipHash := 0
  tipHeight := 0
  tipWork := 0
  bestState := ⟨0, 0, 0⟩
  blockHash := 0
  stxos := []
  bestHeaderHash := 0
  bestHeaderHeight := 0
  utxoDelta := []

end IniNode.BlockChain
