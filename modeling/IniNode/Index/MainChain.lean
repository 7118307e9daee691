import IniNode.Index.Ancestry
import IniNode.Index.HeightRows
import IniNode.Index.StatusRows
/-!
# Queries about the main chain

`BlockHashByHeight` and `BlockHeightByHash` answer from the view of the best chain and, for what has left it, from the
height index. `Main` says what makes the answers right: the view holds the upper end of the connected chain, the height
index names connected blocks only, and what is below the view has its rows. The height index is also written for headers
that are not connected; without that, and while no rows are lost, every run keeps `Main`.
-/

open List Option

namespace IniNode.BlockChain

open BlockIndex

variable {params : ChainParams} {checkpoints : List Checkpoint} {b b' : BlockChain} {h : Int} {x : Hash}

/-! ## The queries -/

/-- `coldNodeAtHeight`, with the state it leaves. -/
def coldNodeAtHeight (b : BlockChain) (height : Int) : Option Ptr × BlockChain :=
  match b.db.heightIndex height with
  | none => (none, b)
  | some hash => b.materializeColdNode hash

def nodeAtHeight (b : BlockChain) (height : Int) : Option Ptr × BlockChain :=
  match b.bi.bestChain.nodeByHeight height with
  | some p => (some p, b)
  | none => b.coldNodeAtHeight height

def blockHashByHeight (b : BlockChain) (height : Int) : Option Hash :=
  let (node, b) := b.nodeAtHeight height
  node.map fun p => (b.bi.mem p).hash

def isMainChainHash (b : BlockChain) (hash : Hash) : Bool :=
  decide (b.bi.windowSize ≠ 0 ∧ (b.db.hashIndex hash).bind b.db.heightIndex = some hash)

def blockHeightByHash (b : BlockChain) (hash : Hash) : Option Int :=
  let (node, b) :=
    match b.bi.lookupNode hash with
    | some p => (some p, b)
    | none => b.materializeColdNode hash
  node.bind fun p =>
    if b.bi.bestChain.contains b.bi.mem p ∨ b.isMainChainHash (b.bi.mem p).hash then some (b.bi.mem p).height else none

def chainAt (b : BlockChain) (height : Int) : Option Hash := if height < 0 then none else b.chain[height.toNat]?

theorem chainAt_eq_some : b.chainAt h = some x ↔ 0 ≤ h ∧ b.chain[h.toNat]? = some x := by
  unfold chainAt
  split
  · simp only [reduceCtorEq, false_iff]
    omega
  · exact ⟨fun hx => ⟨by omega, hx⟩, And.right⟩

theorem chainAt_lt (hx : b.chainAt h = some x) : 0 ≤ h ∧ h < b.chain.length := by
  obtain ⟨hpos, hx⟩ := chainAt_eq_some.1 hx
  have := (List.getElem?_eq_some_iff.1 hx).1
  omega

theorem exists_chainAt (hpos : 0 ≤ h) (hlt : h < b.chain.length) : ∃ x, b.chainAt h = some x :=
  ⟨_, chainAt_eq_some.2 ⟨hpos, getElem?_eq_getElem (by omega)⟩⟩

/-- The connected chain has the block at the height. -/
def OnChain (b : BlockChain) (h : Int) (x : Hash) : Prop := b.chainAt h = some x

theorem only_onChain (hx : b.chainAt h = some x) : Only b.OnChain h x :=
  ⟨hx, fun hy => Option.some.inj (Eq.trans (Eq.symm hy) hx)⟩

/-! ## The nodes a cold read gives -/

variable {hash : Hash} {p : Ptr} {item : WriteItem}

theorem Sound.materialized (hs : b.Sound params) (hp : (b.materializeColdNode hash).1 = some p) :
    ((b.materializeColdNode hash).2.bi.mem p).hash = hash ∧
      ∃ header, b.known hash = some (header, ((b.materializeColdNode hash).2.bi.mem p).height) := by
  rcases materializeColdNode_cases b hash with ⟨h, hcases⟩ | ⟨row, height, -, -, hrow, h⟩
  · rw [h]
    rcases hcases p hp with hp | ⟨-, hp⟩
    · exact ⟨hs.index.hash hp, _, hs.node hp⟩
    · obtain ⟨-, -, -, hhash, hknown⟩ := hs.cold hp
      exact ⟨hhash, _, hknown⟩
  · rw [h] at hp ⊢
    cases hp
    obtain ⟨hheight, -⟩ := fetchBlockRowByHash_eq hrow
    obtain ⟨header, hknown⟩ := hs.db.hashes hheight
    refine ⟨?_, header, ?_⟩
    · simp only [BlockIndex.alloc, Function.update_self]
      rfl
    · simp only [BlockIndex.alloc, Function.update_self]
      exact hknown

theorem materialized_of_rows (hs : b.Sound params) (hw : b.bi.windowSize ≠ 0) (hr : HasRows b.db h x) :
    ∃ p, (b.materializeColdNode x).1 = some p := by
  obtain ⟨k, hk⟩ := isSome_iff_exists.1 hr.hash
  -- the hash index has the block at its height
  obtain ⟨header, hknown⟩ := hs.db.hashes hk
  obtain ⟨header', hknown'⟩ := hs.db.heights hr.height
  obtain ⟨-, rfl⟩ := Prod.mk.inj (mem_unique hknown hknown')
  obtain ⟨row, hrow⟩ := isSome_iff_exists.1 hr.row
  have hfetch : b.db.fetchBlockRowByHash x = some (row, k) := by
    rw [Db.fetchBlockRowByHash, hk, bind_some, hrow]
    rfl
  unfold materializeColdNode
  rw [if_neg hw, hfetch]
  cases b.bi.lookupNode x with
  | some p => exact ⟨p, rfl⟩
  | none =>
    cases b.coldCache.get x with
    | some p => exact ⟨p, rfl⟩
    | none => exact ⟨_, rfl⟩

/-! ## What makes the answers right -/

/-- The node at a height of the view is the index's own node of the connected block. -/
structure ViewNode (b : BlockChain) (h : Int) (x : Hash) (p : Ptr) : Prop where
  view : b.bi.bestChain.nodeByHeight h = some p
  node : b.bi.lookupNode x = some p
  height : (b.bi.mem p).height = h

/-- The item writes what the height index may hold, and the rows of its block are complete with it. -/
structure ItemMain (b : BlockChain) (item : WriteItem) : Prop where
  names : ItemNames b.OnChain item
  row : (b.db.blockIndex (item.height, item.blockHash)).isSome ∨
    ∃ r ∈ item.nodeRows, r.height = item.height ∧ r.hash = item.blockHash

/-- View, rows and queue are those of the connected chain. -/
structure Main (b : BlockChain) : Prop where
  window : 0 < b.bi.windowSize
  base : 0 ≤ b.bi.bestChain.base ∧ b.bi.bestChain.base < b.chain.length
  top : b.bi.bestChain.base + b.bi.bestChain.nodes.length = b.chain.length
  view : ∀ {h x}, b.bi.bestChain.base ≤ h → b.chainAt h = some x → ∃ p, b.ViewNode h x p
  /-- What waits in the queue has not left the view. -/
  pending : b.bi.bestChain.base + b.queue.length ≤ b.chain.length
  names : Names b.OnChain b.db
  stored : ∀ {h x}, b.chainAt h = some x → h < b.chain.length - b.queue.length → HasRows b.db h x
  /-- The queue holds the last blocks of the chain. -/
  queued : ∀ {i : Nat} {item}, b.queue[i]? = some item →
    item.height = (b.chain.length : Int) - b.queue.length + i ∧ b.ItemMain item

theorem Main.below (hm : b.Main) (hx : b.chainAt h = some x) (hp : b.bi.bestChain.nodeByHeight h = none) :
    h < b.bi.bestChain.base := by
  by_contra hle
  obtain ⟨p, hv⟩ := hm.view (Int.not_lt.1 hle) hx
  cases hp.symm.trans hv.view

section Queries
variable (hs : b.Sound params) (hm : b.Main)
include hs hm

theorem Main.coldNode (hx : b.chainAt h = some x) (hbelow : h < b.bi.bestChain.base) :
    HasRows b.db h x ∧ ∃ p, (b.materializeColdNode x).1 = some p := by
  have hrows := hm.stored hx (by have := hm.pending; omega)
  exact ⟨hrows, materialized_of_rows hs (by have := hm.window; omega) hrows⟩

theorem Main.chainAt_of_view (hp : b.bi.bestChain.nodeByHeight h = some p) :
    b.chainAt h = some (b.bi.mem p).hash ∧ b.ViewNode h (b.bi.mem p).hash p := by
  obtain ⟨hlow, hin⟩ := ChainView.nodeByHeight_eq_some.1 hp
  have hlt := (List.getElem?_eq_some_iff.1 hin).1
  have hbase := hm.base
  have htop := hm.top
  obtain ⟨x, hx⟩ := exists_chainAt (b := b) (h := h) (by omega) (by omega)
  obtain ⟨q, hq⟩ := hm.view hlow hx
  obtain rfl := mem_unique hp hq.view
  rw [hs.index.hash hq.node]
  exact ⟨hx, hq⟩

theorem Main.blockHashByHeight_eq (h : Int) : b.blockHashByHeight h = b.chainAt h := by
  unfold blockHashByHeight nodeAtHeight
  cases hp : b.bi.bestChain.nodeByHeight h with
  | some p => exact (hm.chainAt_of_view hs hp).1.symm
  | none =>
    unfold coldNodeAtHeight
    cases hrow : b.db.heightIndex h with
    | some x =>
      -- the row names a connected block, which has left the view
      have hx := hm.names hrow
      obtain ⟨-, p, hnode⟩ := hm.coldNode hs hx (hm.below hx hp)
      dsimp only
      rw [hnode, hx, map_some, (hs.materialized hnode).1]
    | none =>
      cases hx : b.chainAt h with
      | none => rfl
      | some x =>
        have hrows := (hm.coldNode hs hx (hm.below hx hp)).1.height
        rw [hrow] at hrows
        cases hrows

/-- The two indexes lead from a hash back to it exactly for what the height index names. -/
theorem Main.isMainChainHash_iff {header : BlockHeader} (hx : b.known x = some (header, h)) :
    b.isMainChainHash x = true ↔ (b.db.hashIndex x).isSome ∧ b.db.heightIndex h = some x := by
  have hw : b.bi.windowSize ≠ 0 := by have := hm.window; omega
  have hheight : ∀ {k}, b.db.hashIndex x = some k → k = h := by
    intro k hk
    obtain ⟨header', hx'⟩ := hs.db.hashes hk
    exact (Prod.mk.inj (mem_unique hx' hx)).2
  rw [isMainChainHash, decide_eq_true_eq, and_iff_right hw, bind_eq_some_iff]
  constructor
  · rintro ⟨k, hk, hrow⟩
    rw [← hheight hk, hk]
    exact ⟨rfl, hrow⟩
  · rintro ⟨hsome, hrow⟩
    obtain ⟨k, hk⟩ := isSome_iff_exists.1 hsome
    exact ⟨k, hk, hheight hk ▸ hrow⟩

theorem Main.isMainChainHash_of_below (hx : b.chainAt h = some x) (hbelow : h < b.bi.bestChain.base) :
    b.isMainChainHash x = true ∧ ∃ header, b.known x = some (header, h) := by
  have hrows := (hm.coldNode hs hx hbelow).1
  obtain ⟨header, hknown⟩ := hs.db.heights hrows.height
  exact ⟨(hm.isMainChainHash_iff hs hknown).2 ⟨hrows.hash, hrows.height⟩, header, hknown⟩

theorem Main.not_contains_cold (hnone : b.bi.lookupNode x = none)
    (hp : (b.materializeColdNode x).1 = some p) (h : Int) : b.bi.bestChain.nodeByHeight h ≠ some p := by
  intro hin
  have hq := (hm.chainAt_of_view hs hin).2
  rcases materializeColdNode_cases b x with ⟨-, hcases⟩ | ⟨row, height, -, -, -, hnew⟩
  · rcases hcases p hp with hp | ⟨-, hp⟩
    · rw [hnone] at hp
      cases hp
    · exact (hs.cold hp).2.2.1 (mem_nodes.2 ⟨_, hq.node⟩)
  · rw [hnew] at hp
    cases hp
    exact Nat.lt_irrefl _ (hs.index.used hq.node)

theorem Main.blockHeightByHash_iff (x : Hash) (h : Int) : b.blockHeightByHash x = some h ↔ b.chainAt h = some x := by
  unfold blockHeightByHash
  cases hp : b.bi.lookupNode x with
  | some p =>
    have hknown := hs.node hp
    simp only [bind_some, hs.index.hash hp, ite_none_right_eq_some, Option.some.injEq]
    constructor
    · rintro ⟨hin | hin, rfl⟩
      · rw [(hm.chainAt_of_view hs hin).1, hs.index.hash hp]
      · exact hm.names ((hm.isMainChainHash_iff hs hknown).1 hin).2
    · intro hx
      by_cases hbelow : h < b.bi.bestChain.base
      · obtain ⟨hin, header, hknown'⟩ := hm.isMainChainHash_of_below hs hx hbelow
        exact ⟨.inr hin, (Prod.mk.inj (mem_unique hknown hknown')).2⟩
      · obtain ⟨q, hq⟩ := hm.view (Int.not_lt.1 hbelow) hx
        obtain rfl := mem_unique hp hq.node
        refine ⟨.inl ?_, hq.height⟩
        rw [ChainView.contains, hq.height]
        exact hq.view
  | none =>
    obtain ⟨mem, fresh, cache, hcold, -⟩ := warmed_materializeColdNode b x
    have hnot := fun {p} (hnode : (b.materializeColdNode x).1 = some p) k => hm.not_contains_cold hs hp hnode k
    have hmain : (b.materializeColdNode x).2.isMainChainHash x = b.isMainChainHash x := by rw [hcold]; rfl
    have hview : (b.materializeColdNode x).2.bi.bestChain = b.bi.bestChain := by rw [hcold]
    simp only [bind_eq_some_iff, ite_none_right_eq_some, Option.some.injEq]
    constructor
    · rintro ⟨p, hnode, hin, rfl⟩
      obtain ⟨hhash, header, hknown⟩ := hs.materialized hnode
      rw [hhash, hmain] at hin
      rcases hin with hin | hin
      · rw [hview] at hin
        exact absurd hin (hnot hnode _)
      · exact hm.names ((hm.isMainChainHash_iff hs hknown).1 hin).2
    · intro hx
      have hbelow : h < b.bi.bestChain.base := by
        by_contra hle
        obtain ⟨q, hq⟩ := hm.view (Int.not_lt.1 hle) hx
        cases hp.symm.trans hq.node
      obtain ⟨-, p, hnode⟩ := hm.coldNode hs hx hbelow
      obtain ⟨hin, header, hknown⟩ := hm.isMainChainHash_of_below hs hx hbelow
      obtain ⟨hhash, header', hknown'⟩ := hs.materialized hnode
      refine ⟨p, hnode, .inr ?_, (Prod.mk.inj (mem_unique hknown' hknown)).2⟩
      rw [hhash, hmain]
      exact hin

end Queries

/-! ## What keeps them right -/

theorem chainAt_congr (h : b'.chain = b.chain) : b'.chainAt = b.chainAt := by
  funext k
  rw [chainAt, chainAt, h]

theorem onChain_congr (h : b'.chain = b.chain) : b'.OnChain = b.OnChain := by
  funext k x
  rw [OnChain, OnChain, chainAt_congr h]

theorem ItemMain.only (h : b.ItemMain item) : Only b.OnChain item.height item.blockHash :=
  only_onChain h.names.block

theorem ItemMain.grows (h : b.ItemMain item) (hat : b'.OnChain = b.OnChain)
    (hdb : Grows b.OnChain b.db b'.db) : b'.ItemMain item :=
  ⟨hat ▸ h.names, h.row.imp_left (hdb.row h.names.block)⟩

/-- Rows may be written that are about the chain, and nodes that are not in the view may come and go. -/
theorem Main.frame (hm : b.Main) (hwin : b'.bi.windowSize = b.bi.windowSize) (hview : b'.bi.bestChain = b.bi.bestChain)
    (hchain : b'.chain = b.chain) (hqueue : b'.queue = b.queue) (hdb : Grows b.OnChain b.db b'.db)
    (hnode : ∀ {h x p}, b.ViewNode h x p → b'.bi.lookupNode x = some p ∧ (b'.bi.mem p).height = (b.bi.mem p).height) :
    b'.Main := by
  have hat := chainAt_congr hchain
  have hon := onChain_congr hchain
  constructor
  · rw [hwin]
    exact hm.window
  · rw [hview, hchain]
    exact hm.base
  · rw [hview, hchain]
    exact hm.top
  · intro h x hlow hx
    rw [hview] at hlow
    rw [hat] at hx
    obtain ⟨p, hp⟩ := hm.view hlow hx
    obtain ⟨hlook, hheight⟩ := hnode hp
    exact ⟨p, by rw [hview]; exact hp.view, hlook, hheight.trans hp.height⟩
  · rw [hview, hqueue, hchain]
    exact hm.pending
  · rw [hon]
    exact hdb.names hm.names
  · intro h x hx hlt
    rw [hat] at hx
    rw [hchain, hqueue] at hlt
    exact hdb.hasRows (only_onChain hx) (hm.stored hx hlt)
  · intro i item hi
    rw [hqueue] at hi
    rw [hchain, hqueue]
    exact ⟨(hm.queued hi).1, (hm.queued hi).2.grows hon hdb⟩

theorem Main.nodeByHeight_tip (hm : b.Main) : b.bi.bestChain.nodeByHeight (b.chain.length - 1) = b.bi.bestChain.tip := by
  have hbase := hm.base
  have htop := hm.top
  rw [← htop]
  exact ChainView.nodeByHeight_top (by omega)

theorem Main.not_leaves (hs : b.Sound params) (hm : b.Main) (hp : b.bi.bestChain.nodeByHeight h = some p)
    (forceEvict : Bool) : p ∉ b.bi.leaves forceEvict := by
  have hin : b.bi.bestChain.contains b.bi.mem p := by
    rw [ChainView.contains, (hm.chainAt_of_view hs hp).2.height]
    exact hp
  rcases finishFlush_views b.bi forceEvict with ⟨-, -, hnone⟩ | ⟨bd, -, -, -, hout⟩
  · rw [hnone]
    exact not_mem_nil
  · exact fun hmem => (hout p hmem).2.1 hin

/-- The queue is no longer than the channel and the writer's batch together. -/
def QueueFits (b : BlockChain) : Prop := b.queue.length ≤ writeQueueCap + writeQueueBatchSize

/-- An eviction cuts the view, if at all, well below the tip. -/
theorem Main.exists_cut (hs : b.Sound params) (hm : b.Main) (forceEvict : Bool) :
    ∃ bound, (b.bi.finishFlush forceEvict).bestChain = b.bi.bestChain.pruneBelow bound ∧
      (b.bi.bestChain.base < bound → bound + difficultyProtectDepth < b.chain.length) := by
  have hbase := hm.base
  rcases finishFlush_views b.bi forceEvict with ⟨hview, -, -⟩ | ⟨bd, hbd, hview, -, -⟩
  · refine ⟨b.bi.bestChain.base, ?_, fun h => absurd h (by omega)⟩
    rw [hview, ChainView.pruneBelow, if_pos (Int.le_refl _)]
  · refine ⟨bd.chain, hview, fun hlt => ?_⟩
    have htip : b.bi.tipHeight b.bi.bestChain ≤ b.chain.length - 1 := by
      unfold tipHeight
      split
      · omega
      next p hp =>
        have hin := hm.nodeByHeight_tip.trans hp
        exact Int.le_of_eq (hm.chainAt_of_view hs hin).2.height
    have hchain := congrArg Bounds.chain (bounds_eq hbd)
    dsimp only at hchain
    unfold windowBoundary at hchain
    split at hchain <;> omega

theorem Main.finishFlush (hs : b.Sound params) (hm : b.Main) (hq : b.QueueFits) (forceEvict : Bool) :
    (b.finishFlush forceEvict).Main := by
  obtain ⟨bound, hview, hbound⟩ := hm.exists_cut hs forceEvict
  have hbase := hm.base
  have hpending := hm.pending
  have hprune := ChainView.base_pruneBelow b.bi.bestChain bound
  unfold QueueFits writeQueueCap writeQueueBatchSize at hq
  unfold difficultyProtectDepth sugarPowAveragingWindow medianTimeBlocks at hbound
  have hview' : (b.finishFlush forceEvict).bi.bestChain = b.bi.bestChain.pruneBelow bound := hview
  constructor
  · exact (windowSize_finishFlush b.bi forceEvict).symm ▸ hm.window
  · rw [hview']
    change 0 ≤ _ ∧ _ < (b.chain.length : Int)
    omega
  · rw [hview', ChainView.end_pruneBelow]
    · exact hm.top
    · rw [hm.top]
      omega
  · intro h x hle hx
    rw [hview'] at hle
    obtain ⟨p, hp⟩ := hm.view (by omega) hx
    refine ⟨p, ?_, ?_, ?_⟩
    · rw [hview', ChainView.nodeByHeight_pruneBelow]
      split
      · rw [if_pos (by omega)]
        exact hp.view
      · exact hp.view
    · exact (lookupNode_finishFlush b.bi forceEvict x p).2 ⟨hp.node, hm.not_leaves hs hp.view forceEvict⟩
    · exact (BlockNode.height_of_ident (BlockNode.ident_of_data (finishFlush_data b.bi forceEvict p))).trans hp.height
  · rw [hview']
    change _ + (b.queue.length : Int) ≤ b.chain.length
    omega
  · exact hm.names
  · exact hm.stored
  · exact fun hi => ⟨(hm.queued hi).1, (hm.queued hi).2.names, (hm.queued hi).2.row⟩

/-- The dirty nodes that a flush writes height rows for are connected blocks. -/
def DirtyOnChain (b : BlockChain) : Prop :=
  ∀ p ∈ b.bi.dirty, b.bi.bestHeader.contains b.bi.mem p → b.chainAt (b.bi.mem p).height = some (b.bi.mem p).hash

theorem Main.flushToDB (hs : b.Sound params) (hm : b.Main) {forceEvict ok : Bool}
    (hok : ok = true → b.DirtyOnChain ∧ b.QueueFits) : (b.flushToDB forceEvict ok).Main := by
  unfold BlockChain.flushToDB
  split
  · exact hm
  next hcond =>
    rw [not_or, Bool.not_eq_false] at hcond
    obtain ⟨hdirty, hq⟩ := hok hcond.2
    have hrows : ∀ r ∈ b.bi.snapshotDirty, RowNames b.OnChain r := by
      intro r hr hflag
      obtain ⟨p, hp, rfl⟩ := List.mem_map.1 hr
      exact hdirty p hp (of_decide_eq_true hflag)
    refine Main.finishFlush hs.dirtyWritten (hm.frame rfl rfl rfl rfl ?_ fun hp => ⟨hp.node, rfl⟩) hq forceEvict
    exact Grows.flushToDB hrows b.db b.headerState

/-! ### The queue -/

theorem Main.exists_item (hm : b.Main) (hx : b.chainAt h = some x)
    (hq : (b.chain.length : Int) - b.queue.length ≤ h) :
    ∃ (i : Nat) (item : WriteItem), b.queue[i]? = some item ∧ h = (b.chain.length : Int) - b.queue.length + i ∧
      item.height = h ∧ item.blockHash = x := by
  have hlt := chainAt_lt hx
  obtain ⟨item, hi⟩ : ∃ item, b.queue[(h - (b.chain.length - b.queue.length)).toNat]? = some item :=
    ⟨_, getElem?_eq_getElem (by omega)⟩
  obtain ⟨hheight, hmain⟩ := hm.queued hi
  have hh : item.height = h := by omega
  refine ⟨_, item, hi, by omega, hh, ?_⟩
  have hblock := hmain.names.block
  rw [hh] at hblock
  exact (only_onChain hx).unique hblock

theorem Main.itemMain_of_mem (hm : b.Main) (hi : item ∈ b.queue) : b.ItemMain item := by
  obtain ⟨i, hi⟩ := mem_iff_getElem?.1 hi
  exact (hm.queued hi).2

theorem Main.commit (hm : b.Main) {n : Nat} (hok : (flushBatch b.db (b.queue.take n)).isSome) : (b.commit n true).Main := by
  obtain ⟨db', hdb'⟩ := isSome_iff_exists.1 hok
  have hitems : ∀ item ∈ b.queue.take n, b.ItemMain item := fun item hi => hm.itemMain_of_mem (mem_of_mem_take hi)
  obtain ⟨hgrows, hown⟩ := Grows.flushBatch (fun item hi => (hitems item hi).names) hdb'
  have hdb : (b.commit n true).db = db' := by
    unfold BlockChain.commit
    rw [hdb']
    rfl
  have hqueue : (b.commit n true).queue = b.queue.drop n := rfl
  constructor
  · exact hm.window
  · exact hm.base
  · exact hm.top
  · exact fun hle hx => (hm.view hle hx).imp fun p hp => ⟨hp.view, hp.node, hp.height⟩
  · have hpending := hm.pending
    rw [hqueue, length_drop]
    change b.bi.bestChain.base + ((b.queue.length - n : Nat) : Int) ≤ b.chain.length
    omega
  · rw [hdb]
    exact hgrows.names hm.names
  · intro h x hx hlt
    rw [hdb]
    change h < (b.chain.length : Int) - (b.queue.drop n).length at hlt
    rw [length_drop] at hlt
    by_cases hold : h < b.chain.length - b.queue.length
    · exact hgrows.hasRows (only_onChain hx) (hm.stored hx hold)
    · -- the block's item is one of those written
      obtain ⟨i, item, hi, hhi, hh, hhash⟩ := hm.exists_item hx (Int.not_lt.1 hold)
      have hmem : item ∈ b.queue.take n := by
        refine mem_iff_getElem?.2 ⟨i, ?_⟩
        rw [getElem?_take_of_lt (by omega), hi]
      have hrows := hown item hmem (hitems item hmem).only (hitems item hmem).row
      rwa [hh, hhash] at hrows
  · intro i item hi
    rw [hqueue, getElem?_drop] at hi
    have hlen := (List.getElem?_eq_some_iff.1 hi).1
    obtain ⟨hheight, hmain⟩ := hm.queued hi
    refine ⟨?_, hmain.grows rfl (hdb ▸ hgrows)⟩
    change item.height = (b.chain.length : Int) - (b.queue.drop n).length + i
    rw [length_drop]
    omega

theorem Main.syncNowBelow (hm : b.Main) {m : Int} {batched : Nat} (hsync : b.SyncCommits m batched) :
    Grows b.OnChain b.db (b.syncNowBelow m batched).db ∧
      ∀ {h x}, b.chainAt h = some x → h ≤ m → HasRows (b.syncNowBelow m batched).db h x := by
  obtain ⟨db1, db2, h1, h2⟩ := hsync
  have hdb : (b.syncNowBelow m batched).db = db2 := by
    simp [BlockChain.syncNowBelow, h1, h2]
  rw [hdb]
  have htake : ∀ item ∈ (b.queue.take batched).filter (WriteItem.keptBelow m), b.ItemMain item :=
    fun item hi => hm.itemMain_of_mem (mem_of_mem_take (mem_filter.1 hi).1)
  have hdrop : ∀ item ∈ (b.queue.drop batched).filter (WriteItem.keptBelow m), b.ItemMain item :=
    fun item hi => hm.itemMain_of_mem (mem_of_mem_drop (mem_filter.1 hi).1)
  obtain ⟨hg1, hown1⟩ := Grows.flushBatch (fun item hi => (htake item hi).names) h1
  obtain ⟨hg2, hown2⟩ := Grows.flushBatch (fun item hi => (hdrop item hi).names) h2
  refine ⟨hg1.trans hg2, fun {h x} hx hle => ?_⟩
  by_cases hold : h < b.chain.length - b.queue.length
  · exact (hg1.trans hg2).hasRows (only_onChain hx) (hm.stored hx hold)
  · obtain ⟨i, item, hi, -, hh, hhash⟩ := hm.exists_item hx (Int.not_lt.1 hold)
    have hkept : WriteItem.keptBelow m item = true := by
      rw [WriteItem.keptBelow, decide_eq_true_eq]
      exact .inr (hh ▸ hle)
    have hmem := mem_of_getElem? hi
    rw [← take_append_drop batched b.queue, mem_append] at hmem
    rcases hmem with hmem | hmem
    · have hmem := mem_filter.2 ⟨hmem, hkept⟩
      have hrows := hown1 item hmem (htake item hmem).only (htake item hmem).row
      rw [hh, hhash] at hrows
      exact hg2.hasRows (only_onChain hx) hrows
    · have hmem := mem_filter.2 ⟨hmem, hkept⟩
      have hrows := hown2 item hmem (hdrop item hmem).only
        ((hdrop item hmem).row.imp_left (hg1.row (hdrop item hmem).names.block))
      rwa [hh, hhash] at hrows

/-! ### The tip -/

theorem chainAt_concat (hchain : b'.chain = b.chain ++ [hash]) (h : Int) :
    b'.chainAt h = if h = b.chain.length then some hash else b.chainAt h := by
  unfold chainAt
  rw [hchain]
  by_cases hneg : h < 0
  · rw [if_pos hneg, if_pos hneg, if_neg (by omega)]
  · rw [if_neg hneg]
    split
    next heq => rw [heq, Int.toNat_natCast, getElem?_concat_length]
    next hne =>
      by_cases hlt : h.toNat < b.chain.length
      · rw [getElem?_append_left hlt]
      · rw [getElem?_eq_none (by simp; omega), getElem?_eq_none (by omega)]

/-- A block on top of the chain, whose node is in the index and linked to the tip if at all, with its item. -/
theorem Main.connect (hs : b.Sound params) (hm : b.Main)
    (hp : b.bi.lookupNode hash = some p) (hheight : (b.bi.mem p).height = b.chain.length)
    (hparent : ∀ t, (b.bi.mem p).parent = some t → b.bi.bestChain.tip = some t)
    (hitem : item.height = b.chain.length ∧ item.blockHash = hash)
    (hrows : ∀ r ∈ item.nodeRows,
      RowNames (fun h x => (if h = b.chain.length then some hash else b.chainAt h) = some x) r)
    (hrow : RowAtHand b.db item) :
    Main ({ b with queue := b.queue ++ [item], chain := b.chain ++ [hash] }.setChainTip (some p)) := by
  have hbase := hm.base
  have htop := hm.top
  have hpending := hm.pending
  have hview : b.bi.bestChain.setTip b.bi.mem (some p) =
      { b.bi.bestChain with nodes := b.bi.bestChain.nodes ++ [some p] } := by
    apply ChainView.setTip_extend (by omega)
    intro t ht
    have hin := hm.nodeByHeight_tip.trans (hparent t ht)
    refine .inr ?_
    rw [(hm.chainAt_of_view hs hin).2.height]
    exact (ChainView.nodeByHeight_eq_some.1 hin).2
  set b1 : BlockChain := { b with queue := b.queue ++ [item], chain := b.chain ++ [hash] }.setChainTip (some p) with hb1
  have hview1 : b1.bi.bestChain = { b.bi.bestChain with nodes := b.bi.bestChain.nodes ++ [some p] } := hview
  have hchain1 : b1.chain = b.chain ++ [hash] := rfl
  have hqueue1 : b1.queue = b.queue ++ [item] := rfl
  have hat : ∀ h, b1.chainAt h = if h = b.chain.length then some hash else b.chainAt h := chainAt_concat hchain1
  have hold : ∀ h x, b.chainAt h = some x → b1.chainAt h = some x := by
    intro h x hx
    rw [hat, if_neg (by have := chainAt_lt hx; omega), hx]
  constructor
  · exact hm.window
  · rw [hview1, hchain1]
    simp only [length_append]
    omega
  · rw [hview1, hchain1]
    simp only [length_append, length_singleton]
    omega
  · intro h x hle hx
    rw [hview1] at hle
    rw [hat] at hx
    split at hx
    next heq =>
      cases hx
      refine ⟨p, ?_, hp, hheight.trans heq.symm⟩
      rw [hview1, ChainView.nodeByHeight_eq_some]
      refine ⟨hle, ?_⟩
      rw [show (h - b.bi.bestChain.base).toNat = b.bi.bestChain.nodes.length by omega]
      exact getElem?_concat_length
    next =>
      obtain ⟨q, hq⟩ := hm.view hle hx
      obtain ⟨-, hin⟩ := ChainView.nodeByHeight_eq_some.1 hq.view
      refine ⟨q, ?_, hq.node, hq.height⟩
      rw [hview1, ChainView.nodeByHeight_eq_some]
      exact ⟨hle, by rw [getElem?_append_left (List.getElem?_eq_some_iff.1 hin).1, hin]⟩
  · rw [hview1, hqueue1, hchain1]
    simp only [length_append, length_singleton]
    omega
  · exact fun hk => hold _ _ (hm.names hk)
  · intro h x hx hlt
    rw [hqueue1, hchain1] at hlt
    simp only [length_append, length_singleton] at hlt
    rw [hat, if_neg (by omega)] at hx
    exact hm.stored hx (by omega)
  · intro i item' hi
    rw [hqueue1, hchain1]
    simp only [length_append, length_singleton]
    rcases getElem?_concat_eq_some.1 hi with hi | ⟨rfl, rfl⟩
    · obtain ⟨hh, hmain⟩ := hm.queued hi
      exact ⟨by omega, hmain.names.mono hold, hmain.row⟩
    · refine ⟨by omega, ⟨fun r hr => ?_, ?_⟩, hrow⟩
      · intro hflag
        rw [OnChain, hat]
        exact hrows r hr hflag
      · rw [OnChain, hat, hitem.1, if_pos rfl, hitem.2]

theorem Main.height_of_parent (hs : b.Sound params) (hm : b.Main) {p tip : Ptr}
    (hp : b.bi.lookupNode hash = some p) (htip : b.bi.bestChain.tip = some tip)
    (hparent : (b.bi.mem p).parentHash = (b.bi.mem tip).hash) : (b.bi.mem p).height = b.chain.length := by
  have hq := (hm.chainAt_of_view hs (hm.nodeByHeight_tip.trans htip)).2
  have := (hs.of_parent hp hq.node hparent).1
  have := hq.height
  omega

/-- What a node that is to be connected has to meet: its parent link has been cut or leads to the tip, its row is stored
or goes along, and the other dirty nodes that get height rows are connected blocks. Heights fit in an `int32`. -/
structure Connectable (b : BlockChain) (p : Ptr) : Prop where
  parent : ∀ t, (b.bi.mem p).parent = some t → b.bi.bestChain.tip = some t
  row : p ∈ b.bi.dirty ∨ (b.db.blockIndex (b.rowKey p)).isSome
  dirty : ∀ q ∈ b.bi.dirty, b.bi.bestHeader.contains b.bi.mem q →
    q = p ∨ b.chainAt (b.bi.mem q).height = some (b.bi.mem q).hash
  int32 : b.chain.length + b.bi.windowSize < 2 ^ 31

theorem Main.not_leaves_next (hm : b.Main) (hheight : (b.bi.mem p).height = b.chain.length)
    (hfits : b.chain.length + b.bi.windowSize < 2 ^ 31) (forceEvict : Bool) : p ∉ b.bi.leaves forceEvict := by
  have hwindow := hm.window
  have hbase := hm.base
  rcases finishFlush_views b.bi forceEvict with ⟨-, -, hnone⟩ | ⟨bd, hbd, -, -, hout⟩
  · rw [hnone]
    exact not_mem_nil
  · refine fun hmem => (hout p hmem).2.2 ?_
    have htip : b.bi.tipHeight b.bi.bestChain = b.chain.length - 1 := by
      obtain ⟨x, hx⟩ := exists_chainAt (b := b) (h := (b.chain.length : Int) - 1) (by omega) (by omega)
      obtain ⟨q, hq⟩ := hm.view (by omega) hx
      rw [tipHeight, ← hm.nodeByHeight_tip, hq.view]
      exact hq.height
    rw [bounds_eq hbd, int32_of_lt (by omega) (by omega), int32_of_lt (by omega) (by omega)]
    constructor <;> dsimp only <;> omega

theorem Main.connected (hs : b.Sound params) (hm : b.Main) {p tip : Ptr}
    (hp : b.bi.lookupNode hash = some p) (htip : b.bi.bestChain.tip = some tip)
    (hparent : (b.bi.mem p).parentHash = (b.bi.mem tip).hash) (hq : b.QueueFits) (hok : b.Connectable p) :
    (b.connected p hash item).Main := by
  have hheight := hm.height_of_parent hs hp htip hparent
  have hident := BlockNode.ident_of_data (finishFlush_data b.bi false p)
  have hhash := hs.index.hash hp
  refine Main.connect (hs.finishFlush false) (hm.finishFlush hs hq false) ?_ ?_ ?_ ⟨hheight, hhash⟩ ?_ ?_
  · exact (lookupNode_finishFlush b.bi false hash p).2 ⟨hp, hm.not_leaves_next hheight hok.int32 false⟩
  · exact (BlockNode.height_of_ident hident).trans hheight
  · intro t ht
    obtain ⟨bound, hview, hbound⟩ := hm.exists_cut hs false
    have hbase := hm.base
    change (b.bi.finishFlush false).bestChain.tip = some t
    rw [hview, ChainView.tip_pruneBelow]
    · exact hok.parent t (parent_finishFlush ht)
    · rw [hm.top]
      omega
  · intro r hr hflag
    obtain ⟨q, hq, rfl⟩ := List.mem_map.1 hr
    rcases hok.dirty q hq (of_decide_eq_true hflag) with rfl | hx
    · change (if (b.bi.mem q).height = (b.chain.length : Int) then some hash else b.chainAt (b.bi.mem q).height) =
        some (b.bi.mem q).hash
      rw [if_pos hheight, hhash]
    · change (if (b.bi.mem q).height = (b.chain.length : Int) then some hash else b.chainAt (b.bi.mem q).height) =
        some (b.bi.mem q).hash
      rw [if_neg, hx]
      have := chainAt_lt hx
      omega
  · rcases hok.row with hd | hrow
    · exact .inr ⟨b.bi.nodeRow p, List.mem_map_of_mem hd, rfl, rfl⟩
    · exact .inl hrow

end IniNode.BlockChain
