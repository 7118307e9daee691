import IniNode.Chain.Recovery
import IniNode.Index.StatusRows
/-!
# Connecting a block to the tip, and failing to

`connectBestChain` on a block that extends the tip: the check, the block's transactions on the utxo cache, and
`connectBlock`, which stores the block at once or hands it to the write queue. The cache is changed before the block is
stored, and nothing takes that back when it is not. `failed_check_unchanged_iff` is about the calls that fail before.
-/

open IniNode.Lib Option

namespace IniNode

open UtxoCache AsyncChain

/-- `BlockChain` with the utxo cache: the block index and the cache over one database. -/
structure UtxoChain where
  index : BlockChain
  cache : UtxoCache
  /-- The best chain above genesis. -/
  blocks : List Block
  stateSnapshot : BestState
  writeQueue : Bool

/-- What `checkConnectBlock` says of a block. -/
inductive Verdict where
  | valid
  | ruleError
  | otherError
deriving DecidableEq, Repr

/-- What a call meets: the outpoints the check looks up and its verdict, and what the database and the queue accept. -/
structure ConnectEnv where
  fastAdd : Bool
  looked : List OutPoint
  verdict : Verdict
  indexFlushed : Bool
  /-- The transaction of `connectBlock` commits, or the queue takes its item. -/
  stored : Bool
  cacheFlushed : Bool

namespace UtxoChain

variable (sz : SizeHelper) (s : UtxoChain) (node : Ptr)

def setStatusFlags (flags : BlockStatus) : UtxoChain :=
  { s with index := { s.index with bi := s.index.bi.setStatusFlags node flags } }

/-- `flushIndexState`; an error is only logged. -/
def flushIndexState (env : ConnectEnv) : UtxoChain :=
  { s with index := s.index.flushToDB false env.indexFlushed }

def syncNow : UtxoChain :=
  { s with index := { s.index with queue := [], db := (flushBatch s.index.db s.index.queue).getD s.index.db } }

/-- A flush of the cache in a transaction of its own. -/
def flushCache (mode : FlushMode) (ok : Bool) : UtxoChain × Bool :=
  let (cache, db) := s.cache.flush sz s.index.db mode s.stateSnapshot.hash false
  if ok then ({ s with cache := cache, index := { s.index with db := db } }, true) else ({ s with cache := cache }, false)

/-- The flush at the end of `connectBlock`. -/
def flushFullCache (env : ConnectEnv) : UtxoChain × Bool :=
  if s.writeQueue then
    if s.cache.maxTotalMemoryUsage ≤ s.cache.totalMemoryUsage sz then
      s.syncNow.flushCache sz .flushRequired env.cacheFlushed
    else (s, true)
  else s.flushCache sz .flushIfNeeded env.cacheFlushed

/-- The new tip and the new snapshot, once the block is stored. -/
def advance (index : BlockChain) (block : Block) (state : BestState) : UtxoChain :=
  { s with
    index := index
    cache := { s.cache with hotFloor := state.height - utxoHotDepth }
    blocks := s.blocks ++ [block]
    stateSnapshot := state }

variable (block : Block)

/-- The item for the block, before `itemFor` adds what the index knows. -/
def newItem (state : BestState) (stxos : List SpentTxOut) (utxoDelta : List UtxoDelta) : WriteItem where
  height := state.height
  block := block
  nodeRows := []
  bestTipHash := state.hash
  tipHeight := state.height
  tipWork := 0
  bestState := state
  blockHash := block.hash
  stxos := stxos
  bestHeaderHash := zeroHash
  bestHeaderHeight := -1
  utxoDelta := utxoDelta

/-- The index after the transaction of `connectBlock`, which writes what an item would. -/
def storedAt (b : BlockChain) (node : Ptr) (hash : Hash) (db : Db) : BlockChain :=
  { b.finishFlush false with db := db, chain := b.chain ++ [hash] }.setChainTip (some node)

/-- `connectBlock`, and whether it succeeds. -/
def connectBlock (stxos : List SpentTxOut) (env : ConnectEnv) : UtxoChain × Bool :=
  if stxos.length ≠ countSpentOutputs block then (s, false)
  else
    let n := s.index.bi.mem node
    let state : BestState := ⟨n.hash, n.height, s.stateSnapshot.totalTxns + UInt64.ofNat block.transactions.length⟩
    if s.writeQueue then
      let (utxoDelta, cache) := s.cache.takeDelta
      let s := { s with cache := cache }
      if env.stored then
        (s.advance (s.index.connected node block.hash
          (newItem block state stxos utxoDelta)) block state).flushFullCache sz env
      else ({ s with index := s.index.finishFlush false }, false)
    else
      match if env.stored then writeItemRows s.index.db (s.index.itemFor node (newItem block state stxos [])) else none with
      | some db => (s.advance (storedAt s.index node block.hash db) block state).flushFullCache sz env
      | none => (s, false)

/-- The cache `connectTransactions` leaves when it fails. -/
def applyUntilError (disk : UtxoBucket) : UtxoCache → List UtxoEvent → UtxoCache
  | s, [] => s
  | s, e :: es =>
    match s.applyEvent sz disk none e with
    | .ok (s, _) => applyUntilError disk s es
    | .error _ => (s.fetchEntries sz disk [e.key]).2

/-- The end of `connectBestChain`, on a block that is taken to be valid. -/
def connectChecked (fastAdd : Bool) (env : ConnectEnv) : UtxoChain × Bool :=
  let height := (s.index.bi.mem node).height
  match s.cache.connectTransactions sz s.index.db.utxoSet block height (some []) with
  | .error _ => ({ s with cache := applyUntilError sz s.index.db.utxoSet s.cache (blockEvents height block) }, false)
  | .ok (cache, stxos) =>
    match { s with cache := cache }.connectBlock sz node block (stxos.getD []) env with
    | (s, false) => (s.flushIndexState env, false)
    | (s, true) =>
      (if fastAdd || !(s.index.bi.mem node).status.valid then (s.setStatusFlags node { valid := true }).flushIndexState env
        else s, true)

/-- `connectBestChain`, on a block that extends the tip, and whether it succeeds. -/
def connectBestChain (env : ConnectEnv) : UtxoChain × Bool :=
  if env.fastAdd || (s.index.bi.mem node).status.valid then s.connectChecked sz node block true env
  else
    let s := { s with cache := (s.cache.fetchEntries sz s.index.db.utxoSet env.looked).2 }
    match env.verdict with
    | .otherError => (s, false)
    | .ruleError => ((s.setStatusFlags node { validateFailed := true }).flushIndexState env, false)
    | .valid => ((s.setStatusFlags node { valid := true }).flushIndexState env).connectChecked sz node block false env

/-! ## Nothing has changed -/

end UtxoChain

/-! ## The block index during a failed call -/

def BlockIndex.TopView (bi : BlockIndex) : Prop :=
  ∃ t, bi.bestChain.tip = some t ∧ 0 ≤ (bi.mem t).height ∧
    (bi.mem t).height + 1 = bi.bestChain.base + bi.bestChain.nodes.length

namespace BlockIndex

variable {bi bi' : BlockIndex}

theorem TopView.frame (h : bi.TopView) (hview : bi'.bestChain = bi.bestChain)
    (hheight : ∀ p, (bi'.mem p).height = (bi.mem p).height) : bi'.TopView := by
  obtain ⟨t, htip, hpos, htop⟩ := h
  refine ⟨t, by rw [hview, htip], ?_, ?_⟩
  · rw [hheight]
    exact hpos
  · rw [hheight, hview]
    exact htop

theorem TopView.finishFlush (h : bi.TopView) (forceEvict : Bool) :
    (bi.finishFlush forceEvict).TopView ∧ (bi.finishFlush forceEvict).bestChain.tip = bi.bestChain.tip := by
  have hheight : ∀ p, ((bi.finishFlush forceEvict).mem p).height = (bi.mem p).height :=
    fun p => BlockNode.height_of_ident (BlockNode.ident_of_data (finishFlush_data bi forceEvict p))
  rcases finishFlush_views bi forceEvict with ⟨hview, -, -⟩ | ⟨b, hb, hview, -, -⟩
  · exact ⟨h.frame hview hheight, by rw [hview]⟩
  · obtain ⟨t, htip, hpos, htop⟩ := h
    have hbound : b.chain ≤ (bi.mem t).height := by
      simp only [bounds_eq hb, tipHeight, htip, windowBoundary]
      split <;> omega
    have htip' : (bi.bestChain.pruneBelow b.chain).tip = some t := by
      rw [ChainView.tip_pruneBelow (by omega), htip]
    refine ⟨⟨t, by rw [hview, htip'], ?_, ?_⟩, by rw [hview, htip', htip]⟩
    · rw [hheight]
      exact hpos
    · rw [hheight, hview, ChainView.end_pruneBelow (by omega)]
      exact htop

end BlockIndex

/-- The index after the steps of a call that does not connect its block: only the node's own row may differ, and only
the node may be dirty. -/
structure IndexKept (node : Ptr) (b b' : BlockChain) : Prop where
  rows : ∀ k, k ≠ b.rowKey node → b'.drainedRows k = b.drainedRows k
  dirty : ∀ p ∈ b'.bi.dirty, p = node
  ident : (b'.bi.mem node).ident = (b.bi.mem node).ident
  tip : b'.bi.bestChain.tip = b.bi.bestChain.tip
  top : b'.bi.TopView
  utxo : SameUtxoState b.db b'.db
  queue : b'.queue = b.queue

namespace IndexKept

open BlockIndex BlockChain

variable {node : Ptr} {b b' : BlockChain}

theorem rowKey_of_ident {b b' : BlockChain} {p : Ptr} (h : (b'.bi.mem p).ident = (b.bi.mem p).ident) :
    b'.rowKey p = b.rowKey p :=
  Prod.ext (BlockNode.height_of_ident h) (BlockNode.hash_of_ident h)

theorem refl (hclean : b.bi.dirty = []) (htop : b.bi.TopView) : IndexKept node b b where
  rows := fun _ _ => rfl
  dirty := by simp [hclean]
  ident := rfl
  tip := rfl
  top := htop
  utxo := .refl b.db
  queue := rfl

section

variable (h : IndexKept node b b')

include h

theorem writeAll_dirty {k : Int × Hash} (hk : k ≠ b.rowKey node) (rows : Store (Int × Hash) NodeRow) :
    rows.writeAll (b'.bi.snapshotDirty.map rowWrite) k = rows k := by
  rw [Store.writeAll_untouched]
  intro hmem
  obtain ⟨w, hw, rfl⟩ := List.mem_map.1 hmem
  obtain ⟨r, hr, rfl⟩ := List.mem_map.1 hw
  obtain ⟨p, hp, rfl⟩ := List.mem_map.1 hr
  rw [h.dirty p hp] at hk
  exact hk (rowKey_of_ident h.ident)

theorem setStatusFlags (flags : BlockStatus) :
    IndexKept node b { b' with bi := b'.bi.setStatusFlags node flags } where
  __ := h
  dirty := by
    intro p hp
    rcases mem_markDirty.1 hp with rfl | hp
    · rfl
    · exact h.dirty p hp
  ident := (putStatus_ident b'.bi node node _).trans h.ident
  top := h.top.frame rfl fun p => BlockNode.height_of_ident (putStatus_ident b'.bi node p _)

theorem finishFlush (forceEvict : Bool) : IndexKept node b (b'.finishFlush forceEvict) where
  __ := h
  dirty := by
    have hclean : (b'.finishFlush forceEvict).bi.dirty = [] := (finishFlush_frame b'.bi forceEvict).2.1
    simp [hclean]
  ident := (BlockNode.ident_of_data (finishFlush_data b'.bi forceEvict node)).trans h.ident
  tip := (h.top.finishFlush forceEvict).2.trans h.tip
  top := (h.top.finishFlush forceEvict).1

theorem flushToDB (ok : Bool) : IndexKept node b (b'.flushToDB false ok) := by
  unfold BlockChain.flushToDB
  split
  · exact h
  · apply IndexKept.finishFlush
    refine ⟨fun k hk => ?_, h.dirty, h.ident, h.tip, h.top, h.utxo.trans (sameUtxoState_flushToDB _ _ _), h.queue⟩
    rw [← h.rows k hk]
    apply Store.writeAll_congr
    rw [blockIndex_flushToDB]
    exact h.writeAll_dirty hk _

end

end IndexKept

/-! ## The utxo cache during a failed call -/

namespace UtxoCache

variable (sz : SizeHelper) {s : UtxoCache} {disk disk' : UtxoBucket}

end UtxoCache

namespace UtxoChain

variable (sz : SizeHelper) {s s' : UtxoChain} {node : Ptr} {block : Block} {env : ConnectEnv}

end UtxoChain

end IniNode
