import IniNode.Index.Evict
import IniNode.Index.Sync
/-!
# The cached checkpoint

`findPreviousCheckpoint` keeps the address of the node it found. The struct behind it may leave the index, go to
the pool and be taken for the next header, and then the cached checkpoint is another block. As long as no new
node is put in the struct of the cached checkpoint, what the function returns is a configured checkpoint:
`checkpoint_keeps_identity`.
-/

open IniNode.Lib List Option

namespace IniNode.BlockChain

open BlockIndex

variable {params : ChainParams} {checkpoints : List Checkpoint} {b b' : BlockChain} {p : Ptr} {c : Checkpoint}

/-- A struct that stands for a configured checkpoint. -/
def IsCheckpoint (checkpoints : List Checkpoint) (b : BlockChain) (p : Ptr) : Prop :=
  ∃ c ∈ checkpoints, (b.bi.mem p).hash = c.hash ∧ (b.bi.mem p).height = c.height

/-- What is cached is a checkpoint, and the accepted headers have the checkpoints' heights. -/
structure CheckpointsOk (checkpoints : List Checkpoint) (b : BlockChain) : Prop where
  node : ∀ p, b.checkpointNode = some p → p < b.bi.fresh ∧ b.IsCheckpoint checkpoints p
  next : ∀ c, b.nextCheckpoint = some c → c ∈ checkpoints
  heights : ∀ c ∈ checkpoints, ∀ header h, b.known c.hash = some (header, h) → h = c.height

/-- A header with the hash of a checkpoint is accepted at the height of the checkpoint. -/
def AtCheckpointHeight (params : ChainParams) (checkpoints : List Checkpoint) (b : BlockChain) : ChainStep → Prop
  | .header header _ | .block header _ => ∀ c ∈ checkpoints, params.blockHash header = c.hash →
      ∀ prev, b.bi.lookupNode header.prevBlock = some prev → (b.bi.mem prev).height + 1 = c.height
  | _ => True

theorem IsCheckpoint.keeps (h : b.IsCheckpoint checkpoints p) (hk : Keeps b b' p) : b'.IsCheckpoint checkpoints p := by
  obtain ⟨c, hc, hhash, hheight⟩ := h
  exact ⟨c, hc, (BlockNode.hash_of_ident hk.ident).trans hhash, (BlockNode.height_of_ident hk.ident).trans hheight⟩

/-! ## What the search finds -/

theorem isCheckpoint_of_lookup (hs : b.Sound params) (hc : b.CheckpointsOk checkpoints) (hmem : c ∈ checkpoints)
    (hp : b.bi.lookupNode c.hash = some p) : p < b.bi.fresh ∧ b.IsCheckpoint checkpoints p :=
  ⟨hs.index.used hp, c, hmem, hs.index.hash hp, hc.heights c hmem _ _ (hs.node hp)⟩

theorem searchCheckpoint_spec (hs : b.Sound params) (hc : b.CheckpointsOk checkpoints) {cs : List Checkpoint}
    (hsub : cs ⊆ checkpoints) {next : Option Checkpoint} (h : b.searchCheckpoint cs = some (p, next)) :
    (p < b.bi.fresh ∧ b.IsCheckpoint checkpoints p) ∧ ∀ c, next = some c → c ∈ checkpoints := by
  induction cs with
  | nil => cases h
  | cons c cs ih =>
    have hcs := cons_subset.1 hsub
    rw [searchCheckpoint] at h
    split at h
    next r hr =>
      cases h
      exact ih hcs.2 hr
    next =>
      obtain ⟨q, hq, h⟩ := map_eq_some_iff.1 h
      obtain ⟨rfl, rfl⟩ := Prod.mk.inj h
      refine ⟨isCheckpoint_of_lookup hs hc hcs.1 (filter_eq_some_iff.1 hq).1, fun c' hc' => hcs.2 ?_⟩
      exact mem_of_mem_head? hc'

theorem checkpointAfter_mem {hash : Hash} {cs : List Checkpoint}
    (h : (checkpointAfter hash cs).join = some c) : c ∈ cs := by
  induction cs with
  | nil => cases h
  | cons d cs ih =>
    rw [checkpointAfter] at h
    split at h
    next r hr => exact mem_cons_of_mem _ (ih (by rw [hr]; exact h))
    next =>
      split at h
      · exact mem_cons_of_mem _ (mem_of_mem_head? h)
      · cases h

theorem fetchCheckpoint_spec (hs : b.Sound params) (hc : b.CheckpointsOk checkpoints) (hmem : c ∈ checkpoints)
    (hp : (b.fetchCheckpoint c.hash).1 = some p) :
    p < (b.fetchCheckpoint c.hash).2.bi.fresh ∧ (b.fetchCheckpoint c.hash).2.IsCheckpoint checkpoints p := by
  unfold fetchCheckpoint at hp ⊢
  split at hp
  next q hq =>
    cases hp
    exact isCheckpoint_of_lookup hs hc hmem hq
  next hnone =>
    rcases materializeColdNode_cases b c.hash with ⟨h, hcases⟩ | ⟨row, height, -, -, hrow, h⟩
    · rw [h]
      rcases hcases p hp with hq | ⟨-, hq⟩
      · exact isCheckpoint_of_lookup hs hc hmem hq
      · obtain ⟨hlt, -, -, hhash, hkn⟩ := hs.cold hq
        exact ⟨hlt, c, hmem, hhash, hc.heights c hmem _ _ hkn⟩
    · rw [h] at hp ⊢
      cases hp
      refine ⟨Nat.lt_succ_self _, c, hmem, ?_⟩
      simp only [BlockIndex.alloc, Function.update_self]
      exact ⟨rfl, hc.heights c hmem _ _ (hs.db.rows (fetchBlockRowByHash_eq hrow).2)⟩

theorem CheckpointsOk.fetchCheckpoint (hc : b.CheckpointsOk checkpoints) (hash : Hash) :
    (b.fetchCheckpoint hash).2.CheckpointsOk checkpoints := by
  have hkeeps : ∀ p, p < b.bi.fresh → Keeps b (b.fetchCheckpoint hash).2 p :=
    fun p hp => keeps_warmed hp (warmed_fetchCheckpoint b hash)
  obtain ⟨mem, fresh, cache, h, -⟩ := warmed_fetchCheckpoint b hash
  rw [h] at hkeeps ⊢
  refine ⟨fun p hp => ?_, hc.next, hc.heights⟩
  obtain ⟨hlt, his⟩ := hc.node p hp
  exact ⟨(hkeeps p hlt).fresh, his.keeps (hkeeps p hlt)⟩

/-- `findPreviousCheckpoint` returns and caches checkpoints only. -/
theorem findPreviousCheckpoint_spec (hs : b.Sound params) (hc : b.CheckpointsOk checkpoints) {r : Option (Option Ptr)}
    (h : b.findPreviousCheckpoint checkpoints = (r, b')) :
    b'.CheckpointsOk checkpoints ∧ ∀ p, r = some (some p) → b'.IsCheckpoint checkpoints p := by
  have cached : ∀ node, b.checkpointNode = node → ∀ p, (some node : Option (Option Ptr)) = some (some p) →
      b.IsCheckpoint checkpoints p := by
    rintro node hnode p ⟨⟩
    exact (hc.node p hnode).2
  unfold findPreviousCheckpoint at h
  split at h
  · obtain ⟨rfl, rfl⟩ := Prod.mk.inj h
    exact ⟨hc, nofun⟩
  next c cs _ _ =>
    split at h
    next q next hq =>
      obtain ⟨rfl, rfl⟩ := Prod.mk.inj h
      obtain ⟨hfound, hnext⟩ := searchCheckpoint_spec hs hc (List.Subset.refl _) hq
      refine ⟨⟨?_, hnext, hc.heights⟩, ?_⟩
      · rintro p ⟨⟩
        exact hfound
      · rintro p ⟨⟩
        exact hfound.2
    next =>
      obtain ⟨rfl, rfl⟩ := Prod.mk.inj h
      refine ⟨⟨hc.node, ?_, hc.heights⟩, nofun⟩
      rintro d ⟨⟩
      exact mem_cons_self
  · obtain ⟨rfl, rfl⟩ := Prod.mk.inj h
    exact ⟨hc, cached _ rfl⟩
  next checkpoints node next hnode hnext =>
    split at h
    · obtain ⟨rfl, rfl⟩ := Prod.mk.inj h
      exact ⟨hc, nofun⟩
    · split at h
      · obtain ⟨rfl, rfl⟩ := Prod.mk.inj h
        exact ⟨hc, cached _ rfl⟩
      · have hmem := hc.next next hnext
        have hfetched := hc.fetchCheckpoint next.hash
        have hspec := fun p => fetchCheckpoint_spec hs hc hmem (p := p)
        split at h
        next c heq =>
          obtain ⟨rfl, rfl⟩ := Prod.mk.inj h
          rw [heq] at hfetched
          exact ⟨hfetched, nofun⟩
        next q c heq =>
          obtain ⟨rfl, rfl⟩ := Prod.mk.inj h
          rw [heq] at hfetched hspec
          have hfound := hspec q rfl
          refine ⟨⟨?_, fun d hd => checkpointAfter_mem hd, hfetched.heights⟩, ?_⟩
          · rintro p ⟨⟩
            exact hfound
          · rintro p ⟨⟩
            exact hfound.2

/-! ## Every run -/

/-- Only `findPreviousCheckpoint` changes what is cached. -/
theorem cached_move {a : ChainStep} (hm : Move params checkpoints b a b') (hne : a ≠ .checkpoint) :
    b'.checkpointNode = b.checkpointNode ∧ b'.nextCheckpoint = b.nextCheckpoint := by
  have moved : ∀ {c}, HeaderMoved c b' → c.checkpointNode = b.checkpointNode ∧ c.nextCheckpoint = b.nextCheckpoint →
      b'.checkpointNode = b.checkpointNode ∧ b'.nextCheckpoint = b.nextCheckpoint := by
    rintro c ⟨view, own, count, rfl⟩ h
    exact h
  have warm : ∀ {node next}, Warmed b node next b' → b'.checkpointNode = node ∧ b'.nextCheckpoint = next := by
    rintro node next ⟨mem, fresh, cache, rfl, -⟩
    exact ⟨rfl, rfl⟩
  cases hm with
  | headerOld => exact moved (headerMoved_extendHeader b _).countHeader ⟨rfl, rfl⟩
  | headerNew => exact moved (headerMoved_extendHeader _ _).countHeader ⟨rfl, rfl⟩
  | flush =>
    unfold flushToDB
    split <;> exact ⟨rfl, rfl⟩
  | headerTip => exact moved (headerMoved_followBestChain b) ⟨rfl, rfl⟩
  | lookup => exact warm (warmed_materializeColdNode b _)
  | repair => exact warm (warmed_repairFrom _ _ b)
  | checkpoint => exact absurd rfl hne
  | headerKnown | blockOld | blockNew | connect | connectLost | disconnect | disconnectFailed | setStatus | unsetStatus
  | commit | rebuildHeader | rollback | rollbackFailed | remove | template => exact ⟨rfl, rfl⟩

theorem CheckpointsOk.move {a : ChainStep} (hs : b.Sound params) (hc : b.CheckpointsOk checkpoints)
    (hat : b.AtCheckpointHeight params checkpoints a) (hre : ∀ p, b.checkpointNode = some p → ¬ b.Reuses p a)
    (hm : Move params checkpoints b a b') : b'.CheckpointsOk checkpoints := by
  by_cases hcp : a = .checkpoint
  · subst hcp
    cases hm
    exact (findPreviousCheckpoint_spec hs hc rfl).1
  obtain ⟨hnode, hnext⟩ := cached_move hm hcp
  refine ⟨fun p hp => ?_, fun c hn => hc.next c (hnext ▸ hn), fun c hmem header h hk => ?_⟩
  · rw [hnode] at hp
    obtain ⟨hlt, his⟩ := hc.node p hp
    have hkeeps := Keeps.move hlt (hre p hp) hm
    exact ⟨hkeeps.fresh, his.keeps hkeeps⟩
  · rcases known_move hm with hknown | ⟨hdr, recycled, prev, ha, hprev, hknown⟩ <;> rw [hknown] at hk
    · exact hc.heights c hmem header h hk
    · obtain ⟨hx, ⟨⟩⟩ | ⟨-, hk⟩ := Store.of_write hk
      · rcases ha with rfl | rfl <;> exact hat c hmem hx.symm prev hprev
      · exact hc.heights c hmem header h hk

/-- From any sound state with a right cache, and along any steps that put no new node in the struct of the cached
checkpoint, `findPreviousCheckpoint` returns nodes of configured checkpoints only. -/
theorem checkpoint_keeps_identity {as : List ChainStep} (hs : b.Sound params) (hc : b.CheckpointsOk checkpoints)
    (hok : Along (step params checkpoints)
      (fun b a => b.NoCollision params a ∧ b.AtCheckpointHeight params checkpoints a ∧
        ∀ p, b.checkpointNode = some p → ¬ b.Reuses p a) b as)
    (hrun : run (step params checkpoints) b as = some b') {b'' : BlockChain} {p : Ptr}
    (hfind : b'.findPreviousCheckpoint checkpoints = (some (some p), b'')) : b''.IsCheckpoint checkpoints p := by
  have hinv := hs.run_keeps hc (fun hs hc _ hok hm => hc.move hs hok.1 hok.2 hm) hok hrun
  exact (findPreviousCheckpoint_spec hinv.1 hinv.2 hfind).2 p rfl

theorem checkpoint_keeps_identity_first : ∃ b' b'',
    run (step nonceParams [⟨1, 2⟩]) (create nonceParams (headerOn 0 0) 1 10)
      [.header (headerOn 1 1) none, .connect 2 plainItem true, .checkpoint] = some b' ∧
    b'.findPreviousCheckpoint [⟨1, 2⟩] = (some (some 1), b'') ∧ b''.IsCheckpoint [⟨1, 2⟩] 1 := by
  refine exists_run_with rfl fun b' hrun => ⟨_, by cases hrun; rfl, ?_⟩
  refine checkpoint_keeps_identity (create_sound rfl (by decide) 1 10) ⟨nofun, nofun, ?_⟩ ?_ hrun (by cases hrun; rfl)
  · intro c hc header h hk
    rw [mem_singleton.1 hc] at hk
    exact absurd hk.symm (some_ne_none _)
  · refine ⟨⟨⟨by decide, fun _ _ hk => absurd hk.symm (some_ne_none _)⟩, ?_, nofun⟩, fun t ht => ?_⟩
    · intro c hc _ prev hprev
      rw [mem_singleton.1 hc]
      obtain rfl : 0 = prev := Option.some.inj hprev
      rfl
    · exact ⟨⟨trivial, trivial, fun _ _ => id⟩,
        fun u _ => ⟨⟨trivial, trivial, fun _ _ => id⟩, fun _ _ => trivial⟩⟩

/-! ## A checkpoint that becomes another block

The chain is synced to a height at which the first blocks are out of the window of one block, the cached
checkpoint among them. The next header takes its struct. -/

/-- The state around the two evictions: the chain is synced to its tip and the first block is still in the index. -/
structure BeforeEviction (b : BlockChain) : Prop where
  window : b.bi.windowSize = 1 ∧ b.bi.ready = true
  tips : b.bi.bestChain.tip = some 524 ∧ b.bi.bestHeader.tip = some 524
  tip : b.bi.lookupNode 525 = some 524 ∧ (b.bi.mem 524).height = 524
  first : b.bi.lookupNode 2 = some 1 ∧ (b.bi.mem 1).height = 1
  free : b.bi.lookupNode 1001 = none
  cached : b.checkpointNode = some 1 ∧ b.nextCheckpoint = none

namespace BeforeEviction

theorem bounds (h : BeforeEviction b) : b.bi.bounds = some ⟨2, 2, 523, 525⟩ := by
  have htip : b.bi.tipHeight b.bi.bestHeader = 524 ∧ b.bi.tipHeight b.bi.bestChain = 524 := by
    simp [tipHeight, h.tips, h.tip]
  rw [BlockIndex.bounds, htip.1, htip.2]
  simp only [windowBoundary, h.window]
  decide

theorem evicted_iff (h : BeforeEviction b) :
    p ∈ b.bi.evicted ↔ p ∈ b.bi.nodes ∧ (b.bi.mem p).height < 2 ∧ ¬ b.bi.bestChain.contains b.bi.mem p := by
  rw [mem_evicted h.bounds]
  refine and_congr_right fun _ => and_congr_right fun hlow => and_iff_left ?_
  rintro ⟨hf, -⟩
  dsimp only at hf hlow
  omega

/-- The tip is marked, so that there is something to flush. -/
def marked (b : BlockChain) : BlockChain := { b with bi := b.bi.setStatusFlags 524 { valid := true } }

theorem mark (h : BeforeEviction b) : BeforeEviction (marked b) := by
  have hheight : ∀ q, ((marked b).bi.mem q).height = (b.bi.mem q).height := fun q =>
    BlockNode.height_of_ident (putStatus_ident b.bi 524 q _)
  exact ⟨h.window, h.tips, ⟨h.tip.1, (hheight 524).trans h.tip.2⟩, ⟨h.first.1, (hheight 1).trans h.first.2⟩,
    h.free, h.cached⟩

theorem flush_bi (b : BlockChain) :
    ((marked b).flushToDB true true).bi = evictWindow { (marked b).bi with dirty := [] } ∧
      ((marked b).flushToDB true true).checkpointNode = b.checkpointNode ∧
      ((marked b).flushToDB true true).nextCheckpoint = b.nextCheckpoint := by
  have hdirty : (marked b).bi.dirty ≠ [] := ne_nil_of_mem (mem_markDirty.2 (.inl rfl))
  rw [flushToDB, if_neg (by simp [hdirty])]
  exact ⟨rfl, rfl, rfl⟩

def markAndFlush : List ChainStep := [.setStatus 525 { valid := true }, .flush true true]

section

variable (h : BeforeEviction b)

include h

theorem run_flush :
    run (step nonceParams checkpoints) b markAndFlush = some ((marked b).flushToDB true true) := by
  simp only [markAndFlush, run, step, h.tip.1]
  rfl

theorem lookup_flush (x : Hash) (p : Ptr) :
    ((marked b).flushToDB true true).bi.lookupNode x = some p ↔ b.bi.lookupNode x = some p ∧
      (2 ≤ ((marked b).bi.mem p).height ∨ b.bi.bestChain.contains (marked b).bi.mem p) := by
  rw [(flush_bi b).1, lookupNode_evictWindow]
  refine and_congr_right fun hp => ?_
  have hev := h.mark.evicted_iff (p := p)
  change ¬ p ∈ (marked b).bi.evicted ↔ _
  rw [hev, not_and_or, not_and_or, not_not, Int.not_lt]
  exact or_iff_right (not_not.2 (mem_nodes.2 ⟨x, hp⟩))

theorem free_flush : ((marked b).flushToDB true true).bi.lookupNode 1001 = none := by
  cases hx : ((marked b).flushToDB true true).bi.lookupNode 1001 with
  | none => rfl
  | some p =>
    rw [lookup_flush h, h.free] at hx
    cases hx.1

theorem prune (hfirst : b.bi.bestChain.nodeByHeight 1 = some 1)
    (hchain : b.bi.bestChain.base + b.bi.bestChain.nodes.length = 525)
    (hheader : b.bi.bestHeader.base + b.bi.bestHeader.nodes.length = 525) :
    BeforeEviction ((marked b).flushToDB true true) ∧
      ((marked b).flushToDB true true).bi.bestChain.nodeByHeight 1 = none := by
  obtain ⟨hbi, hcp, hnext⟩ := flush_bi b
  have hm := h.mark
  have hb : BlockIndex.bounds { (marked b).bi with dirty := [] } = some ⟨2, 2, 523, 525⟩ := hm.bounds
  have hheight : ∀ p, (((marked b).flushToDB true true).bi.mem p).height = ((marked b).bi.mem p).height := by
    intro p
    rw [hbi]
    exact BlockNode.height_of_ident (BlockNode.ident_of_data (evictWindow_data _ p))
  obtain ⟨hvc, hvh, hw, hr⟩ : ((marked b).flushToDB true true).bi.bestChain = b.bi.bestChain.pruneBelow 2 ∧
      ((marked b).flushToDB true true).bi.bestHeader = b.bi.bestHeader.pruneBelow 2 ∧
      ((marked b).flushToDB true true).bi.windowSize = b.bi.windowSize ∧
      ((marked b).flushToDB true true).bi.ready = b.bi.ready := by
    rw [hbi]
    simp only [evictWindow, hb]
    exact ⟨rfl, rfl, rfl, rfl⟩
  have hbase := (ChainView.nodeByHeight_eq_some.1 hfirst).1
  refine ⟨⟨⟨hw.trans h.window.1, hr.trans h.window.2⟩, ?_, ⟨(lookup_flush h _ _).2 ⟨h.tip.1, .inl ?_⟩, ?_⟩,
    ⟨(lookup_flush h _ _).2 ⟨h.first.1, .inr ?_⟩, ?_⟩, free_flush h, hcp.trans h.cached.1,
    hnext.trans h.cached.2⟩, ?_⟩
  · rw [hvc, hvh, ChainView.tip_pruneBelow (by omega), ChainView.tip_pruneBelow (by omega)]
    exact h.tips
  · rw [hm.tip.2]
    decide
  · rw [hheight, hm.tip.2]
  · rw [ChainView.contains, hm.first.2]
    exact hfirst
  · rw [hheight, hm.first.2]
  · rw [hvc, ChainView.nodeByHeight_pruneBelow, if_pos (by decide), if_neg (by omega)]

theorem reuse (checkpoints : List Checkpoint) (hfirst : b.bi.bestChain.nodeByHeight 1 = none) : ∃ b',
    run (step nonceParams checkpoints) ((marked b).flushToDB true true) [.header (headerOn 525 1000) (some 1)] = some b' ∧
      b'.checkpointNode = some 1 ∧ b'.nextCheckpoint = none ∧ (b'.bi.mem 1).hash = 1001 := by
  obtain ⟨hbi, hcp, hnext⟩ := flush_bi b
  have hm := h.mark
  have hpool : 1 ∈ ((marked b).flushToDB true true).bi.pool := by
    rw [hbi, (evictWindow_frame _).2.2]
    refine mem_append_left _ (hm.evicted_iff.2 ⟨mem_nodes.2 ⟨2, h.first.1⟩, ?_, ?_⟩)
    · rw [hm.first.2]
      decide
    · rw [ChainView.contains, hm.first.2]
      exact fun hc => some_ne_none _ (hc.symm.trans hfirst)
  have htip : ((marked b).flushToDB true true).bi.lookupNode 525 = some 524 := by
    refine (lookup_flush h _ _).2 ⟨h.tip.1, .inl ?_⟩
    rw [hm.tip.2]
    decide
  have hfree := free_flush h
  generalize (marked b).flushToDB true true = c at *
  have hptr : c.bi.newPtr (some 1) = 1 := newPtr_of_mem hpool
  have hself := @makeNode_mem_self nonceParams c (headerOn 525 1000) 524 (some 1) { headerStored := true }
  obtain ⟨view, own, count, hmoved⟩ := (headerMoved_extendHeader
    (c.makeNode nonceParams (headerOn 525 1000) 524 (some 1) { headerStored := true }) 1).countHeader
  rw [hptr] at hself
  refine ⟨((c.makeNode nonceParams (headerOn 525 1000) 524 (some 1)
    { headerStored := true }).extendHeader 1).countHeader.1, ?_, ?_⟩
  · simp [run, step, acceptHeader, show (headerOn 525 1000).prevBlock = 525 from rfl, htip,
      show nonceParams.blockHash (headerOn 525 1000) = 1001 from rfl, hfree, hptr]
  · rw [hmoved]
    exact ⟨hcp.trans h.cached.1, hnext.trans h.cached.2, congrArg BlockNode.hash hself⟩

end

end BeforeEviction

def takeStruct : List ChainStep :=
  .checkpoint :: (BeforeEviction.markAndFlush ++
    (BeforeEviction.markAndFlush ++ [.header (headerOn 525 1000) (some 1)]))

/-- After a sync to height 524 and two evictions, the checkpoint at height 1 is cached as the header on top. -/
theorem checkpoint_changes_identity : ∃ b' b'', run (step nonceParams [⟨1, 2⟩]) (create nonceParams (headerOn 0 0) 1 1)
      (headerRun 0 524 ++ (connectRun 0 524 plainItem ++ takeStruct)) = some b' ∧
    b'.findPreviousCheckpoint [⟨1, 2⟩] = (some (some 1), b'') ∧ ¬ b''.IsCheckpoint [⟨1, 2⟩] 1 := by
  have hst := syncStart_create 1
  obtain ⟨c, hheaders, hc, -⟩ := hst.headers [⟨1, 2⟩] 524
  obtain ⟨d, hconnects, hd⟩ := hc.connects hst nonceParams [⟨1, 2⟩] plainItem (Nat.le_refl 524) (by decide)
  obtain ⟨-, htip, hlooktip⟩ := hd.main hst (Nat.le_refl 524)
  obtain ⟨-, hfirst, hlookfirst⟩ := hd.main hst (k := 1) (by decide)
  obtain ⟨-, -, hnode, hnext⟩ := hd.rest
  have hnth : d.bi.bestChain.nodeByHeight 1 = some 1 := by
    rw [hd.chain]
    exact nodeByHeight_mainNodes (show 1 ≤ 524 by decide)
  -- the checkpoint is found and cached
  have hcontains : d.bi.bestChain.contains d.bi.mem 1 := by
    exact (congrArg d.bi.bestChain.nodeByHeight hfirst).trans hnth
  have hfind : d.findPreviousCheckpoint [⟨1, 2⟩] =
      (some (some 1), { d with checkpointNode := some 1, nextCheckpoint := none }) := by
    have hsearch : d.searchCheckpoint [⟨1, 2⟩] = some (1, none) := by
      have hlook : d.bi.lookupNode 2 = some 1 := hlookfirst
      simp [searchCheckpoint, hlook, hcontains]
    have hnode : d.checkpointNode = none := hnode
    have hnext : d.nextCheckpoint = none := hnext
    simp [findPreviousCheckpoint, hnode, hnext, hsearch]
  have hbefore : BeforeEviction { d with checkpointNode := some 1, nextCheckpoint := none } := by
    refine ⟨hd.window, ?_, ⟨hlooktip, htip⟩, ⟨hlookfirst, hfirst⟩, ?_, rfl, rfl⟩
    · exact ⟨by rw [hd.chain]; exact tip_mainNodes 0 524, by rw [hd.header]; exact tip_mainNodes 0 524⟩
    · exact (hd.lookup_other 1001 (.inr (by decide))).trans (hst.free 1001 (by decide))
  have hlen : ∀ view : ChainView, view = ⟨mainNodes 0 524, 0⟩ → view.base + view.nodes.length = 525 := by
    rintro view rfl
    rw [length_mainNodes]
    rfl
  obtain ⟨hprune, hgone⟩ := hbefore.prune hnth (hlen _ hd.chain) (hlen _ hd.header)
  obtain ⟨b', hreuse, hcp, hnx, hhash⟩ := hprune.reuse [⟨1, 2⟩] hgone
  have hfind' : b'.findPreviousCheckpoint [⟨1, 2⟩] = (some (some 1), b') := by
    simp [findPreviousCheckpoint, hcp, hnx]
  refine ⟨b', b', ?_, hfind', ?_⟩
  · have htake : run (step nonceParams [⟨1, 2⟩]) d takeStruct = some b' := by
      rw [takeStruct, run, step, hfind, bind_some, run_append, hbefore.run_flush, bind_some, run_append,
        hprune.run_flush, bind_some, hreuse]
    rw [run_append, hheaders, bind_some, run_append, hconnects, bind_some, htake]
  · rintro ⟨checkpoint, hmem, hh, -⟩
    rw [mem_singleton.1 hmem, hhash] at hh
    exact absurd hh (by decide)

end IniNode.BlockChain
