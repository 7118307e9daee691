import IniNode.Index.HeaderChain
import IniNode.Index.MainChainRuns
/-!
# Header queries along runs

Which steps keep `HeaderHashByHeight` right, from any state. A flush that evicts has to leave the rows of every header
that leaves the view; a row of another branch at the height is in the way of that, because the row of a header that is not
connected does not replace it.
-/

open IniNode.Lib List Option

namespace IniNode.BlockChain

open BlockIndex BlockNode

variable {params : ChainParams} {checkpoints : List Checkpoint} {b b' : BlockChain} {header : BlockHeader}

/-! ## What leaves the view -/

/-- Nodes that are not in the view may come and go, and rows below the view stay. -/
theorem Headers.frame (hs : b.Sound params) (hh : b.Headers) (hown : b'.ownHeader = none)
    (hwin : b'.bi.windowSize = b.bi.windowSize) (hview : b'.bi.bestHeader = b.bi.bestHeader)
    (hknown : ∀ {x p}, b.bi.lookupNode x = some p → ∀ h, knownAncestor b'.known x h = knownAncestor b.known x h)
    (hqueue : ∀ item ∈ b'.queue, item ∈ b.queue)
    (hdb : ∀ {h x}, h < b.bi.bestHeader.base → b.headerAt h = some x → HasRows b.db h x → HasRows b'.db h x)
    (hnode : ∀ {h x p}, b.HeaderNode h x p → b'.bi.lookupNode x = some p ∧ (b'.bi.mem p).ident = (b.bi.mem p).ident) :
    b'.Headers := by
  have hat : ∀ h, b'.headerAt h = b.headerAt h := by
    intro h
    obtain ⟨x, p, htip, hp⟩ := hh.exists_tip
    rw [headerAt, headerAt, hh.bestHeader_eq, bestHeader, hown, getD_none, hview, htip, bind_some,
      bind_some, hash_of_ident (hnode hp).2, hs.index.hash hp.node, hknown hp.node]
  constructor
  · exact hown
  · rw [hwin]
    exact hh.window
  · rw [hview]
    exact hh.base
  · rw [hview]
    exact hh.top
  · intro h hlow hhigh
    rw [hview] at hlow hhigh
    obtain ⟨x, p, hx, hp⟩ := hh.view hlow hhigh
    obtain ⟨hlook, hident⟩ := hnode hp
    exact ⟨x, p, (hat h).trans hx, by rw [hview]; exact hp.view, hlook, (height_of_ident hident).trans hp.height⟩
  · intro h x hlt hx
    rw [hview] at hlt
    rw [hat] at hx
    exact hdb hlt hx (hh.stored hlt hx)
  · intro item hitem
    refine (hh.queued item (hqueue item hitem)).mono fun h x hx hlt => ?_
    rw [hview] at hlt
    rw [hat]
    exact hx hlt

def evictBase (b : BlockChain) (forceEvict : Bool) : Int := (b.bi.finishFlush forceEvict).bestHeader.base

theorem Headers.base_le_evictBase (b : BlockChain) (forceEvict : Bool) :
    b.bi.bestHeader.base ≤ b.evictBase forceEvict := by
  unfold evictBase
  rcases finishFlush_views b.bi forceEvict with ⟨-, hview, -⟩ | ⟨bd, -, -, hview, -⟩
  · exact Int.le_of_eq (congrArg ChainView.base hview).symm
  · rw [hview, ChainView.base_pruneBelow]
    omega

/-- Below where the view begins after the flush, a height row is for the header chain. -/
def BelowEvicted (b : BlockChain) (forceEvict : Bool) (h : Int) (x : Hash) : Prop :=
  h < b.evictBase forceEvict → b.headerAt h = some x

theorem Headers.finishFlush (hs : b.Sound params) (hh : b.Headers) {forceEvict : Bool}
    (hstored : ∀ {h x}, b.bi.bestHeader.base ≤ h → h < b.evictBase forceEvict → b.headerAt h = some x →
      HasRows b.db h x)
    (hqueue : ∀ item ∈ b.queue, ItemNames (b.BelowEvicted forceEvict) item) : (b.finishFlush forceEvict).Headers := by
  have hident : ∀ p, ((b.bi.finishFlush forceEvict).mem p).ident = (b.bi.mem p).ident :=
    fun p => ident_of_data (finishFlush_data b.bi forceEvict p)
  rcases finishFlush_views b.bi forceEvict with ⟨-, hview, hnone⟩ | ⟨bd, hbd, -, hview, hout⟩
  · refine hh.frame hs hh.own (windowSize_finishFlush b.bi forceEvict) hview (fun _ _ => rfl) (fun _ hi => hi)
      (fun _ _ hr => hr) fun {h x p} hp => ⟨?_, hident p⟩
    refine (lookupNode_finishFlush b.bi forceEvict x p).2 ⟨hp.node, ?_⟩
    rw [hnone]
    exact not_mem_nil
  · have hbase : b.evictBase forceEvict = max b.bi.bestHeader.base bd.header := by
      rw [evictBase, hview, ChainView.base_pruneBelow]
    obtain ⟨x0, t, htip, ht⟩ := hh.exists_tip
    have htop := hh.top
    have hbase0 := hh.base
    -- the bound is below the tip
    have hbound : bd.header < b.bi.bestHeader.base + b.bi.bestHeader.nodes.length := by
      have hheader := congrArg Bounds.header (bounds_eq hbd)
      dsimp only at hheader
      have htipHeight : b.bi.tipHeight b.bi.bestHeader = b.bi.bestHeader.base + b.bi.bestHeader.nodes.length - 1 := by
        rw [tipHeight, htip]
        exact ht.height
      unfold windowBoundary at hheader
      split at hheader <;> omega
    have hat : ∀ h, (b.finishFlush forceEvict).headerAt h = b.headerAt h := by
      intro h
      have hown : (b.finishFlush forceEvict).bestHeader = (b.bi.finishFlush forceEvict).bestHeader := by
        rw [bestHeader, show (b.finishFlush forceEvict).ownHeader = none from hh.own]
        rfl
      rw [headerAt, headerAt, hh.bestHeader_eq, hown, hview, ChainView.tip_pruneBelow hbound, htip, bind_some]
      congr 1
      exact hash_of_ident (hident t)
    have hview' : (b.finishFlush forceEvict).bi.bestHeader = b.bi.bestHeader.pruneBelow bd.header := hview
    have hend := ChainView.end_pruneBelow (c := b.bi.bestHeader) (h := bd.header) (by omega)
    have hbase' := ChainView.base_pruneBelow b.bi.bestHeader bd.header
    constructor
    · exact hh.own
    · exact (windowSize_finishFlush b.bi forceEvict).symm ▸ hh.window
    · rw [hview']
      omega
    · rw [hview']
      omega
    · intro h hlow hhigh
      rw [hview'] at hlow hhigh
      obtain ⟨x, p, hx, hp⟩ := hh.view (h := h) (by omega) (by omega)
      refine ⟨x, p, (hat h).trans hx, ?_, ?_, (height_of_ident (hident p)).trans hp.height⟩
      · rw [hview', ChainView.nodeByHeight_pruneBelow, if_neg (by omega)]
        exact hp.view
      · refine (lookupNode_finishFlush b.bi forceEvict x p).2 ⟨hp.node, fun hmem => ?_⟩
        have := (hout p hmem).1
        rw [hp.height] at this
        omega
    · intro h x hlt hx
      rw [hview', hbase'] at hlt
      rw [hat] at hx
      by_cases hold : h < b.bi.bestHeader.base
      · exact hh.stored hold hx
      · exact hstored (Int.not_lt.1 hold) (hbase.symm ▸ hlt) hx
    · intro item hitem
      refine (hqueue item hitem).mono fun h x hx hlt => ?_
      rw [hview', hbase'] at hlt
      rw [hat]
      exact hx (hbase.symm ▸ hlt)

/-! ## Flushes -/

theorem Headers.rowNames (hs : b.Sound params) (hh : b.Headers) {r : NodeRowSnapshot} (hr : r ∈ b.bi.snapshotDirty)
    (hflag : r.heightIndex = true) : b.headerAt r.height = some r.hash := by
  obtain ⟨p, -, rfl⟩ := List.mem_map.1 hr
  exact (hh.headerAt_of_view hs (of_decide_eq_true hflag)).1

/-- What a flush has to find: a header that leaves the view has its rows, or is dirty and no other block has the row at
its height; and no queued row below is for another block. -/
structure Evicts (b : BlockChain) (forceEvict : Bool) : Prop where
  stored : ∀ {h x}, b.bi.bestHeader.base ≤ h → h < b.evictBase forceEvict → b.headerAt h = some x →
    HasRows b.db h x ∨ (∃ p ∈ b.bi.dirty, b.bi.bestHeader.contains b.bi.mem p ∧ b.bi.lookupNode x = some p) ∧
      ∀ {y}, b.db.heightIndex h = some y → y = x
  queued : ∀ item ∈ b.queue, ItemNames (b.BelowEvicted forceEvict) item

theorem Headers.hasRows_flushToDB (hs : b.Sound params) (hh : b.Headers) {h : Int} {x : Hash} (hx : b.headerAt h = some x)
    (hrow : HasRows b.db h x ∨
      (∃ p ∈ b.bi.dirty, b.bi.bestHeader.contains b.bi.mem p ∧ b.bi.lookupNode x = some p) ∧
      ∀ {y}, b.db.heightIndex h = some y → y = x) :
    HasRows (AsyncChain.flushToDB b.db b.bi.snapshotDirty b.headerState) h x := by
  -- only this block gets the row at its height
  have honly : ∀ r ∈ b.bi.snapshotDirty, r.heightIndex = true → r.height = h → r.hash = x := by
    rintro r hr hflag rfl
    exact mem_unique (hh.rowNames hs hr hflag) hx
  have hrows : HasRows (b.bi.snapshotDirty.foldl writeNodeRowSnapshot b.db) h x := by
    rcases hrow with hr | ⟨⟨p, hdirty, hin, hp⟩, hfree⟩
    · exact (@Grows.foldl_rows (fun k y => k = h → y = x) _ honly b.db).hasRows ⟨fun _ => rfl, fun hy => hy rfl⟩ hr
    · have hhash := hs.index.hash hp
      obtain rfl : (b.bi.mem p).height = h := by
        have hknown := hs.node hp
        obtain ⟨header, hknown'⟩ := (hs.known.known_of_ancestor (bind_eq_some_iff.1 hx).choose_spec.2).2
        exact (Prod.mk.inj (mem_unique hknown hknown')).2
      have hr : b.bi.nodeRow p ∈ b.bi.snapshotDirty := List.mem_map_of_mem hdirty
      rw [← hhash] at honly hfree ⊢
      exact Grows.hasRows_foldl hr rfl (decide_eq_true hin) honly hfree
  cases b.headerState with
  | none => exact hrows
  | some tip => exact ⟨hrows.height, hrows.hash, hrows.row⟩

theorem Headers.flushToDB (hs : b.Sound params) (hh : b.Headers) {forceEvict ok : Bool}
    (hok : ok = true → b.bi.dirty ≠ [] → b.Evicts forceEvict) : (b.flushToDB forceEvict ok).Headers := by
  unfold BlockChain.flushToDB
  split
  · exact hh
  next hcond =>
    rw [not_or, Bool.not_eq_false] at hcond
    have hev := hok hcond.2 hcond.1
    have hbelow : ∀ r ∈ b.bi.snapshotDirty, RowNames b.BelowView r := by
      intro r hr hflag _
      exact hh.rowNames hs hr hflag
    have hgrows : Grows b.BelowView b.db (AsyncChain.flushToDB b.db b.bi.snapshotDirty b.headerState) :=
      Grows.flushToDB hbelow b.db b.headerState
    have hh' : Headers { b with db := AsyncChain.flushToDB b.db b.bi.snapshotDirty b.headerState } :=
      hh.frame hs hh.own rfl rfl (fun _ _ => rfl) (fun _ hi => hi)
        (fun hlt hx hr => hgrows.hasRows (only_belowView hlt hx) hr) fun hp => ⟨hp.node, rfl⟩
    refine hh'.finishFlush hs.dirtyWritten ?_ hev.queued
    intro h x hlow hlt hx
    exact hh.hasRows_flushToDB hs hx (hev.stored hlow hlt hx)

/-! ## The queue -/

theorem Headers.written (hh : b.Headers) :
    (∀ n ok {h x}, h < b.bi.bestHeader.base → b.headerAt h = some x → HasRows (b.commit n ok).db h x) ∧
      ∀ m batched {h x}, h < b.bi.bestHeader.base → b.headerAt h = some x →
        HasRows (b.syncNowBelow m batched).db h x := by
  refine writer_keeps (I := fun db => ∀ {h x}, h < b.bi.bestHeader.base → b.headerAt h = some x →
    HasRows db h x) hh.stored ?_ ?_
  · intro item hi db d hdb hw h x hlt hx
    exact (Grows.item (hh.queued item hi) hw).1.hasRows (only_belowView hlt hx) (hdb hlt hx)
  · intro db marker watermark hdb h x hlt hx
    have hrows := hdb hlt hx
    exact ⟨hrows.height, hrows.hash, hrows.row⟩

section

variable (hs : b.Sound params) (hh : b.Headers) {hash : Hash} {p : Ptr}

include hs hh

theorem Headers.commit (n : Nat) (ok : Bool) : (b.commit n ok).Headers :=
  hh.frame hs hh.own rfl rfl (fun _ _ => rfl) (fun _ hi => mem_of_mem_drop hi) (fun hlt hx _ => hh.written.1 n ok hlt hx)
    fun hp => ⟨hp.node, rfl⟩

theorem Headers.syncNowBelow (m : Int) (batched : Nat) : (b.syncNowBelow m batched).Headers :=
  hh.frame hs hh.own rfl rfl (fun _ _ => rfl) (fun _ hi => absurd hi not_mem_nil)
    (fun hlt hx _ => hh.written.2 m batched hlt hx) fun hp => ⟨hp.node, rfl⟩

/-! ## The best chain -/

/-- What connecting a node has to find: what leaves the header view has its rows, no queued row below is for another block,
and neither is the node's own. -/
structure ConnectsHeader (b : BlockChain) (hash : Hash) (p : Ptr) : Prop where
  stored : ∀ {h x}, b.bi.bestHeader.base ≤ h → h < b.evictBase false → b.headerAt h = some x → HasRows b.db h x
  queued : ∀ item ∈ b.queue, ItemNames (b.BelowEvicted false) item
  block : b.BelowEvicted false (b.bi.mem p).height hash

theorem Headers.connected {item : WriteItem}
    (hp : b.bi.lookupNode hash = some p) (hok : b.ConnectsHeader hash p) : (b.connected p hash item).Headers := by
  have hitem : ItemNames (b.BelowEvicted false) (b.itemFor p item) := by
    refine ⟨fun r hr hflag _ => hh.rowNames hs hr hflag, ?_⟩
    change b.BelowEvicted false (b.bi.mem p).height (b.bi.mem p).hash
    rw [hs.index.hash hp]
    exact hok.block
  have hbase := Headers.base_le_evictBase b false
  -- the item is queued before the index is flushed
  have hs1 : Sound params { b with queue := b.queue ++ [b.itemFor p item] } :=
    hs.ofDb hs.db (forall_mem_append.2 ⟨hs.queue, forall_mem_singleton.2 (hs.itemFor hp item)⟩)
  have hh1 : Headers { b with queue := b.queue ++ [b.itemFor p item] } := by
    refine { hh with view := fun hlow hhigh => ?_, queued := forall_mem_append.2 ⟨hh.queued, forall_mem_singleton.2 ?_⟩ }
    · obtain ⟨x, q, hx, hq⟩ := hh.view hlow hhigh
      exact ⟨x, q, hx, hq.view, hq.node, hq.height⟩
    · exact hitem.mono fun h x hx hlt => hx (by change h < b.bi.bestHeader.base at hlt; omega)
  have hflush := hh1.finishFlush hs1 hok.stored (forall_mem_append.2 ⟨hok.queued, forall_mem_singleton.2 hitem⟩)
  exact hflush.frame (hs1.finishFlush false) hh.own rfl rfl (fun _ _ => rfl) (fun _ hi => hi) (fun _ _ hr => hr)
    fun hq => ⟨hq.node, rfl⟩

theorem Headers.disconnected {p prev : Ptr} {totalTxns : UInt64}
    (hp : b.bi.lookupNode hash = some p) (hbase : b.bi.bestHeader.base ≤ (b.bi.mem p).height) :
    (b.disconnected p prev totalTxns).Headers := by
  refine hh.frame hs hh.own rfl rfl (fun _ _ => rfl) (fun _ hi => hi)
    (fun {h x} hlt hx hr => ?_) fun hq => ⟨hq.node, rfl⟩
  exact HasRows.disconnectTx hs hp hr (by omega)

/-! ## What the steps have to meet -/

/-- A header on top of this one, with this much work, becomes the header tip. -/
def Overtakes (b : BlockChain) (prevBlock : Hash) (work : Nat) : Prop :=
  ∃ tip, b.bestHeader.tip = some tip ∧ (prevBlock = (b.bi.mem tip).hash ∨ (b.bi.mem tip).workSum < work)

/-- What the steps have to meet so that the query stays right. A header that becomes the tip is linked to the view; a flush
leaves the rows of what leaves the view; and no row below the view is written for another block, or taken away. -/
def KeepsHeaders (params : ChainParams) (b : BlockChain) : ChainStep → Prop
  | .header header _ => ∀ prev, b.bi.lookupNode header.prevBlock = some prev →
      match b.bi.lookupNode (params.blockHash header) with
      | some p => ¬ b.bestHeader.contains b.bi.mem p → b.Overtakes (b.bi.mem p).parentHash (b.bi.mem p).workSum →
        b.Meets p
      | none => b.Overtakes header.prevBlock ((b.bi.mem prev).workSum + calcWork header.bits) → b.Meets prev
  | .flush forceEvict ok => ok = true → b.bi.dirty ≠ [] → b.Evicts forceEvict
  | .connect hash _ enqueued => ∀ p, b.bi.lookupNode hash = some p →
      if enqueued then b.ConnectsHeader hash p
      else (∀ {h x}, b.bi.bestHeader.base ≤ h → h < b.evictBase false → b.headerAt h = some x →
        HasRows b.db h x) ∧ ∀ item ∈ b.queue, ItemNames (b.BelowEvicted false) item
  | .headerTip => ∀ p tip, b.bi.bestChain.tip = some p → b.bestHeader.tip = some tip →
      (b.bi.mem tip).workSum < (b.bi.mem p).workSum → b.Meets p
  | .disconnect _ _ _ ok => ok = true → ∀ p, b.bi.bestChain.tip = some p →
      b.bi.lookupNode (b.bi.mem p).hash = some p ∧ b.bi.bestHeader.base ≤ (b.bi.mem p).height
  | .rebuildHeader _ => False
  | .rollback height _ _ _ => b.bi.bestHeader.base ≤ height + 1
  | .remove hash => ∀ h, b.headerAt h ≠ some hash
  | _ => True

/-! ## The other steps -/

theorem Headers.countHeader : b.countHeader.1.Headers := by
  obtain ⟨count, heq⟩ := countHeader_eq b
  rw [heq]
  exact hh.frame hs hh.own rfl rfl (fun _ _ => rfl) (fun _ hi => hi) (fun _ _ hr => hr) fun hq => ⟨hq.node, rfl⟩

theorem Headers.extendHeader
    (hmeets : b.Overtakes (b.bi.mem p).parentHash (b.bi.mem p).workSum → b.Meets p) : (b.extendHeader p).Headers := by
  unfold BlockChain.extendHeader
  split
  · exact hh
  next tip htip =>
    split
    next hmore => exact hh.setHeaderTip hs (hmeets ⟨tip, htip, hmore⟩)
    next => exact hh

theorem Headers.makeNode {prev : Ptr} {recycled : Option Ptr}
    {status : BlockStatus} (hprev : b.bi.lookupNode header.prevBlock = some prev)
    (hnew : b.bi.lookupNode (params.blockHash header) = none) (hcol : params.blockHash header ≠ zeroHash ∧
      ∀ header' h, b.known (params.blockHash header) = some (header', h) → header' = header) :
    (b.makeNode params header prev recycled status).Headers := by
  have hs' : (b.makeNode params header prev recycled status).Sound params := hs.makeNode hprev hnew hcol.1 hcol.2
  refine hh.frame hs hh.own rfl rfl (fun {x p} hp h => ?_) (fun _ hi => hi) (fun _ _ hr => hr)
    fun {h x p} hp => ⟨lookupNode_makeNode_old hnew hp.node, ?_⟩
  · exact hs.known.ancestor_mono hs'.known (fun x v hv => hs.known_makeNode hprev hcol.2 hv) (hs.node hp) h
  · rw [makeNode_mem_ne (hs.index.newPtr_fresh recycled hp.node)]

theorem Meets.makeNode {prev p : Ptr} {recycled : Option Ptr}
    {status : BlockStatus} (hnew : b.bi.lookupNode (params.blockHash header) = none) (hp : b.Meets p) :
    (b.makeNode params header prev recycled status).Meets p := by
  have hmem : ∀ {x q}, b.bi.lookupNode x = some q →
      (b.makeNode params header prev recycled status).bi.mem q = b.bi.mem q :=
    fun hq => makeNode_mem_ne (hs.index.newPtr_fresh recycled hq)
  induction hp with
  | view hin =>
    refine .view ?_
    rw [ChainView.contains, hmem (hh.headerAt_of_view hs hin).2.node]
    exact hin
  | cut hp hparent hq hhash =>
    have hqnode := (hh.headerAt_of_view hs hq).2.node
    refine .cut ?_ ?_ (by rw [hmem hp]; exact hq) ?_
    · rw [hmem hp]
      exact lookupNode_makeNode_old hnew hp
    · rw [hmem hp]
      exact hparent
    · rw [hmem hp, hmem hqnode]
      exact hhash
  | link hp hparent hhash hq ih =>
    refine .link ?_ ?_ ?_ ih
    · rw [hmem hp]
      exact lookupNode_makeNode_old hnew hp
    · rw [hmem hp]
      exact hparent
    · rw [hmem hp, hmem (hq.node hs hh)]
      exact hhash

theorem Headers.warmed {node : Option Ptr} {next : Option Checkpoint} (h : Warmed b node next b') : b'.Headers := by
  obtain ⟨mem, fresh, cache, rfl, -, hdata⟩ := h
  refine hh.frame hs hh.own rfl rfl (fun _ _ => rfl) (fun _ hi => hi) (fun _ _ hr => hr) fun hq => ⟨hq.node, ?_⟩
  exact ident_of_data (hdata _ (hs.index.used hq.node))

theorem Headers.putStatus (p : Ptr) (status : BlockStatus) :
    Headers { b with bi := (b.bi.putStatus p status).markDirty p } :=
  hh.frame hs hh.own rfl rfl (fun _ _ => rfl) (fun _ hi => hi) (fun _ _ hr => hr)
    fun hq => ⟨hq.node, putStatus_ident b.bi p _ status⟩

theorem Headers.rolledBack {h : Int} (hbase : b.bi.bestHeader.base ≤ h + 1)
    (oldHeaderTip : Int) (totalTxns : UInt64) (p : Ptr) : (b.rolledBack h oldHeaderTip totalTxns p).Headers := by
  refine hh.frame hs hh.own rfl rfl (fun _ _ => rfl) (fun _ hi => hi) (fun {k x} hlt hx hr => ⟨?_, hr.hash, hr.row⟩)
    fun hq => ⟨hq.node, rfl⟩
  change (if h < k ∧ k ≤ oldHeaderTip then none else b.db.heightIndex k) = some x
  rw [if_neg (by omega)]
  exact hr.height

theorem Headers.removed (hnot : ∀ h, b.headerAt h ≠ some hash) :
    (b.removed hash p).Headers := by
  obtain ⟨hmem, -, -, -, hview, hwin⟩ := removeNode_frame b.bi hash
  refine hh.frame hs hh.own hwin hview (fun _ _ => rfl) (fun _ hi => hi)
    (fun {h x} hlt hx hr => ⟨hr.height, hr.hash, ?_⟩) fun {h x q} hq => ⟨?_, ?_⟩
  · change (b.db.blockIndex.write ⟨((b.bi.mem p).height, hash), none⟩ (h, x)).isSome
    rw [Store.write_apply, if_neg]
    · exact hr.row
    · intro hk
      obtain rfl : x = hash := congrArg Prod.snd hk
      exact hnot h hx
  · change (b.bi.removeNode hash).lookupNode x = some q
    rw [lookupNode_removeNode, if_neg, hq.node]
    rintro rfl
    have hx := (hh.headerAt_of_view hs hq.view).1
    rw [hs.index.hash hq.node] at hx
    exact hnot h hx
  · change ((b.bi.removeNode hash).mem q).ident = _
    rw [hmem]

/-! ## Every step -/

theorem Headers.move {a : ChainStep} (hcol : b.NoCollision params a)
    (hok : b.KeepsHeaders params a) (h : Move params checkpoints b a b') : b'.Headers := by
  cases h with
  | headerKnown => exact hh
  | headerOld hprev hp hin =>
    have hmeets := hok _ hprev
    rw [hp] at hmeets
    exact (hh.extendHeader hs (hmeets hin)).countHeader (hs.headerMoved (headerMoved_extendHeader b _))
  | @headerNew header recycled prev hprev hnew =>
    have hmeets := hok _ hprev
    rw [hnew] at hmeets
    have hs' : (b.makeNode params header prev recycled { headerStored := true }).Sound params :=
      hs.makeNode hprev hnew hcol.1 hcol.2
    have hh' : (b.makeNode params header prev recycled { headerStored := true }).Headers := hh.makeNode hs hprev hnew hcol
    refine (hh'.extendHeader hs' fun hover => ?_).countHeader (hs'.headerMoved (headerMoved_extendHeader _ _))
    have hself := @makeNode_mem_self params b header prev recycled { headerStored := true }
    have hprevMem := @makeNode_mem_ne params b header prev recycled { headerStored := true } prev
      (hs.index.newPtr_fresh recycled hprev)
    -- the new node is linked to the block before it
    have hprevMeets : b.Meets prev := by
      apply hmeets
      obtain ⟨tip, htip, hmore⟩ := hover
      obtain ⟨x, t, ht, htnode⟩ := hh.exists_tip
      have htip' : b.bi.bestHeader.tip = some tip := by
        rw [bestHeader, show (b.makeNode params header prev recycled { headerStored := true }).ownHeader =
          none from hh.own] at htip
        exact htip
      obtain rfl := mem_unique ht htip'
      refine ⟨t, by rw [hh.bestHeader_eq]; exact ht, ?_⟩
      rw [hself, makeNode_mem_ne (hs.index.newPtr_fresh recycled htnode.node)] at hmore
      exact hmore
    refine .link ?_ (by rw [hself]) ?_ (hprevMeets.makeNode hs hh hnew)
    · rw [hself, lookupNode_makeNode, if_pos rfl]
    · rw [hself, hprevMem, hs.index.hash hprev]
  | @blockOld header recycled prev p hprev hp =>
    have hmark : Move params checkpoints b (.setStatus (params.blockHash header) { dataStored := true }) _ := .setStatus hp
    have hs' := hs.move (show b.NoCollision params (.setStatus _ _) from trivial) hmark
    exact (hh.putStatus hs p _).warmed hs' (warmed_relink _ p prev)
  | blockNew hprev hnew => exact hh.makeNode hs hprev hnew hcol
  | template =>
    refine hh.frame hs hh.own rfl rfl (fun _ _ => rfl) (fun _ hi => hi) (fun _ _ hr => hr) fun hq => ⟨hq.node, ?_⟩
    rw [newBlockNode_mem_ne (hs.index.newPtr_fresh _ hq.node)]
  | flush => exact hh.flushToDB hs hok
  | connect hp => exact hh.connected hs hp (hok _ hp)
  | connectLost hp => exact hh.finishFlush hs (hok _ hp).1 (hok _ hp).2
  | headerTip =>
    unfold followBestChain
    split
    next p tip hp htip =>
      split
      next hmore => exact hh.setHeaderTip hs (hok p tip hp htip hmore)
      next => exact hh
    next => exact hh
  | disconnect hp =>
    obtain ⟨hnode, hbase⟩ := hok rfl _ hp
    exact (hh.syncNowBelow hs _ _).disconnected (hs.syncNowBelow _ _) hnode hbase
  | disconnectFailed => exact hh.syncNowBelow hs _ _
  | setStatus | unsetStatus => exact hh.putStatus hs _ _
  | commit n ok => exact hh.commit hs n ok
  | lookup => exact hh.warmed hs (warmed_materializeColdNode b _)
  | repair => exact hh.warmed hs (warmed_repairFrom _ _ b)
  | checkpoint => exact hh.warmed hs (warmed_checkpoint checkpoints b)
  | rebuildHeader => exact hok.elim
  | @rollback height oldHeaderTip totalTxns p hp =>
    have hh' : (b.setChainTip (some p)).Headers :=
      hh.frame hs hh.own rfl rfl (fun _ _ => rfl) (fun _ hi => hi) (fun _ _ hr => hr) fun hq => ⟨hq.node, rfl⟩
    have hs' : (b.setChainTip (some p)).Sound params := hs.ofDb hs.db hs.queue
    exact hh'.rolledBack hs' hok _ _ _
  | rollbackFailed =>
    exact hh.frame hs hh.own rfl rfl (fun _ _ => rfl) (fun _ hi => hi) (fun _ _ hr => hr) fun hq => ⟨hq.node, rfl⟩
  | remove => exact hh.removed hs hok

end

theorem create_headers (hprev : header.prevBlock = zeroHash) (hz : params.blockHash header ≠ zeroHash)
    (totalTxns : UInt64) {windowSize : Int} (hw : 0 < windowSize) : (create params header totalTxns windowSize).Headers := by
  have hknown : (create params header totalTxns windowSize).known (params.blockHash header) = some (header, 0) := if_pos rfl
  have hat : (create params header totalTxns windowSize).headerAt 0 = some (params.blockHash header) :=
    knownAncestor_self hknown (Int.le_refl 0)
  refine ⟨rfl, hw, Int.le_refl 0, Nat.zero_lt_one, fun {h} hlow hhigh => ?_, fun {h x} hlt hx => ?_, fun item hi => ?_⟩
  · change 0 ≤ h at hlow
    change h < 0 + 1 at hhigh
    obtain rfl : h = 0 := by omega
    exact ⟨_, 0, hat, rfl, AList.lookup_insert _, rfl⟩
  · change h < 0 at hlt
    have := ((create_sound hprev hz totalTxns windowSize).known.known_of_ancestor hx).1
    omega
  · cases hi

/-! ## The query -/

/-- In every state that a run from the start reaches by steps that all keep the query right, the header at every height up
to the header tip is the tip's ancestor at that height. -/
theorem header_hash_by_height {header : BlockHeader} (hprev : header.prevBlock = zeroHash)
    (hz : params.blockHash header ≠ zeroHash)
    {totalTxns : UInt64} {windowSize : Int} (hw : 0 < windowSize) {as : List ChainStep}
    (hok : Along (step params checkpoints) (fun b a => b.NoCollision params a ∧ b.KeepsHeaders params a)
      (create params header totalTxns windowSize) as)
    (hrun : run (step params checkpoints) (create params header totalTxns windowSize) as = some b') {h : Int}
    (hpos : 0 ≤ h) (hle : h ≤ b'.bestHeader.height) :
    ∃ tip x, b'.bestHeader.tip = some tip ∧ (b'.bi.mem tip).height = b'.bestHeader.height ∧
      knownAncestor b'.known (b'.bi.mem tip).hash h = some x ∧ b'.headerHashByHeight h = some x := by
  obtain ⟨hs, hh⟩ := (create_sound hprev hz totalTxns windowSize).run_keeps (create_headers hprev hz totalTxns hw)
    (fun hs hh hcol hkeep hm => hh.move hs hcol hkeep hm) hok hrun
  have hheight : b'.bestHeader.height = b'.bi.bestHeader.base + b'.bi.bestHeader.nodes.length - 1 := by
    rw [hh.bestHeader_eq, ChainView.height, if_neg (ne_nil_of_length_pos hh.top)]
  obtain ⟨y, tip, htip, hnode⟩ := hh.exists_tip
  obtain ⟨x, -, hx, -⟩ := hh.exists_headerAt hs hpos (by omega)
  refine ⟨tip, x, by rw [hh.bestHeader_eq]; exact htip, by rw [hheight]; exact hnode.height, ?_, ?_⟩
  · rw [headerAt, hh.bestHeader_eq, htip] at hx
    exact hx
  · rw [hh.headerHashByHeight_eq hs hpos hle, hx]

theorem KnownTo.ancestor {off n : Nat} (h : KnownTo off n b) (hn : 1 ≤ n) {j : Nat} (hj : j ≤ n) :
    knownAncestor b.known (n + off + 1) ((n - j : Nat) : Int) = some (mainPtr off (n - j) + 1) := by
  have hparent : ∀ k, 1 ≤ k → k ≤ n →
      knownParent b.known (mainPtr off k + 1) = some (mainPtr off (k - 1) + 1) := by
    intro k hpos hk
    rw [mainPtr_pos hpos, knownParent, h.header k hpos hk, bind_some, if_pos]
    · rfl
    · change (b.known (mainPtr off (k - 1) + 1)).isSome
      rcases Nat.eq_zero_or_pos (k - 1) with hzero | hpos'
      · rw [hzero]
        exact h.genesis
      · rw [mainPtr_pos hpos', h.header (k - 1) hpos' (by omega)]
        rfl
  have hhop : hop (knownParent b.known) j (some (n + off + 1)) = some (mainPtr off (n - j) + 1) := by
    induction j with
    | zero => rw [Nat.sub_zero, mainPtr_pos hn]; rfl
    | succ j ih => rw [hop_add j 1, ih (by omega), hop_succ, hparent (n - j) (by omega) (by omega)]; rfl
  rw [knownAncestor_eq (h.header n hn (Nat.le_refl n)) (by omega) (by omega), ← hhop]
  congr 1
  omega

theorem height_pruneBelow_mainNodes {off n : Nat} {h : Int} (hle : h ≤ n) :
    ((⟨mainNodes off n, 0⟩ : ChainView).pruneBelow h).height = n := by
  have hend := ChainView.end_pruneBelow (c := ⟨mainNodes off n, 0⟩) (h := h) (by simp only [length_mainNodes]; omega)
  have hbase := ChainView.base_pruneBelow ⟨mainNodes off n, 0⟩ h
  simp only [length_mainNodes] at hend hbase
  rw [ChainView.height, if_neg (ne_nil_of_length_pos (by omega))]
  omega

/-- A header on top of the tip meets the conditions. -/
theorem Synced.headers_keep {b0 : BlockChain} {off n m : Nat} (hst : SyncStart off b0) (h : Synced b0 off n m b)
    (hto : KnownTo off n b) (j : Nat) :
    Along (step nonceParams checkpoints) (fun b a => b.NoCollision nonceParams a ∧ b.KeepsHeaders nonceParams a) b
      ((range j).map fun k => .header (mainHeader off (n + k + 1)) none) := by
  induction j generalizing n b with
  | zero => trivial
  | succ j ih =>
    obtain ⟨-, hheight, hmain⟩ := h.main hst (Nat.le_refl n)
    obtain ⟨c, hstep, hc, -⟩ := h.header_step hst checkpoints
    rw [range_succ_eq_map, map_cons, List.map_map]
    refine .cons ⟨⟨Nat.succ_ne_zero _, fun header' k hk => ?_⟩, fun prev hp => ?_⟩ hstep ?_
    · rw [hto.free _ (by rw [show nonceParams.blockHash _ = n + 1 + off + 1 from rfl]; omega)] at hk
      cases hk
    · obtain rfl := mem_unique hmain hp
      have hview : b.Meets (mainPtr off n) := by
        refine .view ?_
        rw [ChainView.contains, hheight, h.header, nodeByHeight_mainNodes (Nat.le_refl n)]
      split
      next p hnode =>
        rw [show nonceParams.blockHash _ = n + 1 + off + 1 from rfl, h.lookup_other _ (.inr (by omega)),
          hst.free _ (by omega)] at hnode
        cases hnode
      next => exact fun _ => hview
    · have htail := ih hc (h.knownTo hst hto hstep)
      simp only [Nat.add_right_comm n 1] at htail
      exact htail

theorem SyncStart.headers_keep {b0 : BlockChain} {off : Nat} (hst : SyncStart off b0) (hto : KnownTo off 0 b0)
    (n : Nat) :
    Along (step nonceParams checkpoints) (fun b a => b.NoCollision nonceParams a ∧ b.KeepsHeaders nonceParams a) b0
      (headerRun off n) := by
  have h := @Synced.headers_keep checkpoints b0 b0 off 0 0 hst hst.synced hto n
  simp only [Nat.zero_add] at h
  exact h

/-- A flush after the headers may evict: the rows of what it cuts off are there or written by it. -/
theorem SyncStart.evict_keep {b0 : BlockChain} {off n : Nat} (hst : SyncStart off b0) (hto : KnownTo off 0 b0)
    (hrow : HasRows b0.db 0 1) (hfree : ∀ h, 0 < h → b0.db.heightIndex h = none) (hqueue : b0.queue = [])
    (hn : 1 ≤ n) {as : List ChainStep} (has : as = headerRun off n ++ [.flush true true]) :
    Along (step nonceParams checkpoints)
    (fun b a => b.NoCollision nonceParams a ∧ b.KeepsHeaders nonceParams a) b0 as := by
  subst has
  obtain ⟨c, hrun, hc, hdirty, hqueue', hknown⟩ := hst.headers checkpoints n
  have hknown := hknown hto
  refine along_append (hst.headers_keep hto n) fun t ht => ?_
  obtain rfl := mem_unique hrun ht
  refine ⟨⟨trivial, fun _ _ => ⟨fun {h x} hlow _ hx => ?_, fun item hi => ?_⟩⟩, fun _ _ => trivial⟩
  · rw [hc.header] at hlow
    obtain ⟨k, rfl⟩ := Int.eq_ofNat_of_zero_le hlow
    rw [headerAt, bestHeader, hc.own, getD_none, hc.header, tip_mainNodes, bind_some, (hc.main hst (Nat.le_refl n)).1,
      mainPtr_pos hn] at hx
    have hk : k ≤ n := by
      obtain ⟨r, hr, hin⟩ := bind_eq_some_iff.1 hx
      obtain rfl := mem_unique hr (hknown.header n hn (Nat.le_refl n))
      exact Int.ofNat_le.1 (ite_none_right_eq_some.1 hin).1.2
    have hanc := hknown.ancestor hn (Nat.sub_le n k)
    rw [Nat.sub_sub_self hk] at hanc
    obtain rfl := mem_unique hanc hx
    rw [hc.rest.1]
    rcases Nat.eq_zero_or_pos k with rfl | hpos
    · exact .inl hrow
    · obtain ⟨-, hheight, hlook⟩ := hc.main hst hk
      refine .inr ⟨⟨mainPtr off k, ?_, ?_, hlook⟩, fun {y} hy => ?_⟩
      · rw [mainPtr_pos hpos]
        exact hdirty k hpos hk
      · rw [ChainView.contains, hheight, hc.header]
        exact nodeByHeight_mainNodes hk
      · cases (hfree k (Int.ofNat_lt.2 hpos)).symm.trans hy
  · rw [hqueue', hqueue] at hi
    cases hi

/-- Enough headers for an eviction. -/
def headersAndEvict : List ChainStep := headerRun 0 524 ++ [.flush true true]

/-- With a window of one block, the flush after 524 headers cuts the first ones off the view; the header at height 1 is
read from its rows. -/
theorem header_hash_by_height_evicted : ∃ b' tip x,
    run (step nonceParams []) (create nonceParams (headerOn 0 0) 1 1) headersAndEvict = some b' ∧
    b'.bestHeader.base = 2 ∧ b'.bestHeader.tip = some tip ∧ (b'.bi.mem tip).height = b'.bestHeader.height ∧
    knownAncestor b'.known (b'.bi.mem tip).hash 1 = some x ∧ b'.headerHashByHeight 1 = some x := by
  have hst := syncStart_create 1
  obtain ⟨c, hrun, hc, hdirty, -⟩ := hst.headers [] 524
  obtain ⟨-, hbest, -⟩ := hc.flush hst ⟨rfl, rfl⟩ (ne_nil_of_mem (hdirty 524 (by decide) (Nat.le_refl 524)))
  have hbase : (c.flushToDB true true).bestHeader.base = 2 := by
    rw [hbest, ChainView.base_pruneBelow]
    rfl
  have hle : 1 ≤ (c.flushToDB true true).bestHeader.height := by
    rw [hbest, height_pruneBelow_mainNodes (by decide)]
    decide
  -- the list stays a variable: its 524 steps are not to be unfolded
  obtain ⟨as, has⟩ : ∃ as, as = headersAndEvict := ⟨_, rfl⟩
  have hlast : run (step nonceParams []) (create nonceParams (headerOn 0 0) 1 1) as = some (c.flushToDB true true) := by
    rw [has, headersAndEvict, run_append, hrun]
    rfl
  rw [← has]
  have hto : KnownTo 0 0 (create nonceParams (headerOn 0 0) 1 1) :=
    ⟨rfl, fun x hx => if_neg (Nat.ne_of_gt hx), fun k hpos hk => absurd (Nat.lt_of_lt_of_le hpos hk) (Nat.lt_irrefl 0)⟩
  have hfree : ∀ h, 0 < h → (create nonceParams (headerOn 0 0) 1 1).db.heightIndex h = none :=
    fun h hpos => (Store.write_apply _ _ h).trans (if_neg (Int.ne_of_gt hpos))
  obtain ⟨tip, x, h⟩ := header_hash_by_height rfl (by decide) (by decide)
    (hst.evict_keep hto ⟨rfl, rfl, rfl⟩ hfree rfl (by decide) has) hlast Int.one_nonneg hle
  exact ⟨_, tip, x, hlast, hbase, h⟩

/-! ## A branch that is overtaken after a flush -/

/-- One header, flushed; then the first two headers of a branch that overtakes it. -/
def overtake : List ChainStep :=
  [.header (headerOn 1 1) none, .flush false true, .header (mainHeader 1 1) none, .header (mainHeader 1 2) none]

/-- The branch after them, and a flush that evicts. -/
def overtakeAndEvict : List ChainStep :=
  overtake ++ (((range 522).map fun k => .header (mainHeader 1 (2 + k + 1)) none) ++ [.flush true true])

/-- The state after the first header is flushed, with its header view put back to genesis. -/
def sideFlushed : BlockChain :=
  let b := (run (step nonceParams []) (create nonceParams (headerOn 0 0) 1 1) (overtake.take 2)).getD
    (create nonceParams (headerOn 0 0) 1 1)
  { b with bi := { b.bi with bestHeader := ⟨mainNodes 1 0, 0⟩ } }

theorem syncStart_sideFlushed : SyncStart 1 sideFlushed where
  synced := .start rfl rfl rfl rfl rfl
  genesis := ⟨rfl, rfl, rfl⟩
  free x hx := by
    change (AList.insert 2 1 (AList.insert 1 0 (∅ : AList fun _ : Hash => Ptr))).lookup x = none
    rw [AList.lookup_insert_ne (Nat.ne_of_gt hx), AList.lookup_insert_ne (Nat.ne_of_gt (Nat.lt_of_succ_lt hx))]
    rfl

theorem overtake_synced : ∃ b, run (step nonceParams []) (create nonceParams (headerOn 0 0) 1 1) overtake = some b ∧
    Synced sideFlushed 1 2 0 b ∧ KnownTo 1 2 b := by
  have htwo : ∀ {P : Nat → Prop}, P 1 → P 2 → ∀ k, 1 ≤ k → k ≤ 2 → P k := by
    intro P h1 h2 k hk hk'
    obtain rfl | rfl : k = 1 ∨ k = 2 := by omega
    · exact h1
    · exact h2
  refine ⟨_, rfl, ⟨rfl, rfl, htwo ⟨rfl, rfl⟩ ⟨rfl, rfl⟩, fun p hp => ?_, htwo rfl rfl, fun x hx => ?_, rfl,
    rfl, rfl, ⟨rfl, rfl⟩, rfl, rfl, rfl, rfl, rfl⟩, rfl, fun x hx => ?_, htwo rfl rfl⟩
  · obtain rfl | rfl : p = 0 ∨ p = 1 := Nat.le_one_iff_eq_zero_or_eq_one.1 hp
    · rfl
    · rfl
  · change (AList.insert 4 3 (AList.insert 3 2 sideFlushed.bi.index)).lookup x = sideFlushed.bi.index.lookup x
    have h4 : x ≠ 4 := by rintro rfl; omega
    have h3 : x ≠ 3 := by rintro rfl; omega
    rw [AList.lookup_insert_ne h4, AList.lookup_insert_ne h3]
  · have hne : ∀ k ≤ 4, x ≠ k := fun k hk => Nat.ne_of_gt (Nat.lt_of_le_of_lt hk hx)
    change ((((create nonceParams (headerOn 0 0) 1 1).known.write ⟨2, _⟩).write ⟨3, _⟩).write ⟨4, _⟩) x = none
    rw [Store.write_apply, if_neg (hne 4 (by decide)), Store.write_apply, if_neg (hne 3 (by decide)), Store.write_apply,
      if_neg (hne 2 (by decide))]
    exact if_neg (hne 1 (by decide))

/-- The height row of the first header stays, and after the eviction it answers for the branch that overtook it. -/
theorem header_of_other_branch : ∃ b' tip, run (step nonceParams [])
    (create nonceParams (headerOn 0 0) 1 1) overtakeAndEvict = some b' ∧
    b'.bestHeader.tip = some tip ∧ (b'.bi.mem tip).height = 524 ∧
    knownAncestor b'.known (b'.bi.mem tip).hash 1 = some 3 ∧ b'.headerHashByHeight 1 = some 2 := by
  obtain ⟨b2, hrun2, hsync2, hknown2⟩ := overtake_synced
  obtain ⟨c, hrun, hc, hdirty, -, hknown⟩ := hsync2.headers syncStart_sideFlushed [] 522
  have hknown : KnownTo 1 524 c := hknown hknown2
  obtain ⟨htipHash, htipHeight, -⟩ := hc.main syncStart_sideFlushed (k := 524) (Nat.le_refl 524)
  obtain ⟨hflush, hbest, htip, hdata, hstays⟩ := hc.flush syncStart_sideFlushed ⟨rfl, rfl⟩
    (ne_nil_of_mem (hdirty 524 (by decide) (Nat.le_refl 524)))
  have hmem := fun p => ident_of_data (hdata p)
  -- the header flushed first is near the tip of the best chain
  have hsideNode : (c.bi.mem 1).hash = 2 ∧ (c.bi.mem 1).height = 1 := by
    rw [hc.side 1 (Nat.le_refl 1)]
    exact ⟨rfl, rfl⟩
  have hlook : (c.flushToDB true true).bi.lookupNode 2 = some 1 :=
    hstays (hc.lookup_other 2 (.inl (Nat.le_refl 2))) (.inr hsideNode.2)
  have hrow : c.db.heightIndex 1 = some 2 := by
    rw [hc.rest.1]
    rfl
  have hrow' : (AsyncChain.flushToDB c.db c.bi.snapshotDirty c.headerState).heightIndex 1 = some 2 := by
    have hoff : ∀ r ∈ c.bi.snapshotDirty, r.height = 1 → r.heightIndexChain = false := by
      intro r hr hheight
      obtain ⟨q, -, rfl⟩ := List.mem_map.1 hr
      refine decide_eq_false fun hin => ?_
      rw [ChainView.contains, show (c.bi.mem q).height = 1 from hheight, hc.chain] at hin
      cases hin
    have hrows := Grows.heightIndex_foldl_off hrow hoff
    cases c.headerState with
    | none => exact hrows
    | some tip => exact hrows
  refine ⟨c.flushToDB true true, 525, ?_, htip, ?_, ?_, ?_⟩
  · rw [overtakeAndEvict, run_append, hrun2, bind_some, run_append, hrun]
    rfl
  · exact (height_of_ident (hmem 525)).trans htipHeight
  · rw [hash_of_ident (hmem 525), show (c.bi.mem 525).hash = 526 from htipHash, hflush]
    exact hknown.ancestor (by decide) (j := 523) (by decide)
  · have hwin : (c.flushToDB true true).bi.windowSize ≠ 0 := by
      rw [hflush, BlockChain.finishFlush, windowSize_finishFlush, hc.window.1]
      decide
    have hcold : (c.flushToDB true true).materializeColdNode 2 = (some 1, c.flushToDB true true) := by
      rw [materializeColdNode, if_neg hwin, hlook]
    unfold headerHashByHeight coldNodeAtHeight
    rw [hbest, ChainView.nodeByHeight_pruneBelow, if_pos (by decide), if_neg (by decide),
      show (c.flushToDB true true).db.heightIndex 1 = some 2 by rw [hflush]; exact hrow']
    simp only [hcold, map_some]
    rw [hash_of_ident (hmem 1), hsideNode.1]

end IniNode.BlockChain
