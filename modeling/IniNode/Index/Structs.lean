import IniNode.Index.BlockChain
/-!
# The structs of the index

A node of the index stays the node of its block for as long as it is in the index: structs are reused only
from the pool, and the pool has no struct that is in the index. `IndexSound` says so, and what changes the
index keeps it: marking a node, cutting and mending links, evicting, removing, and making a new node.
-/

open IniNode.Lib List Option Function

namespace IniNode

open BlockNode
def BlockNode.data (n : BlockNode) : BlockNode := { n with parent := none, ancestor := none }

/-- The block a node stands for. -/
def BlockNode.ident (n : BlockNode) : Hash × BlockHeader × Int := (n.hash, n.header, n.height)

variable {n m : BlockNode}

theorem BlockNode.ident_of_data (h : n.data = m.data) : n.ident = m.ident :=
  (congrArg ident h : n.data.ident = m.data.ident)

theorem BlockNode.status_of_data (h : n.data = m.data) : n.status = m.status :=
  (congrArg status h : n.data.status = m.data.status)

theorem BlockNode.workSum_of_data (h : n.data = m.data) : n.workSum = m.workSum :=
  (congrArg workSum h : n.data.workSum = m.data.workSum)

theorem BlockNode.hash_of_ident (h : n.ident = m.ident) : n.hash = m.hash := congrArg Prod.fst h

theorem BlockNode.header_of_ident (h : n.ident = m.ident) : n.header = m.header :=
  congrArg (fun k => k.2.1) h

theorem BlockNode.height_of_ident (h : n.ident = m.ident) : n.height = m.height :=
  congrArg (fun k => k.2.2) h

namespace BlockIndex

variable {params : ChainParams} {bi bi' : BlockIndex} {p : Ptr} {hash : Hash}

/-! ## The structs of the index -/

/-- No indexed node is in the pool. -/
structure IndexSound (bi : BlockIndex) : Prop where
  hash : ∀ {hash p}, bi.lookupNode hash = some p → (bi.mem p).hash = hash
  used : ∀ {hash p}, bi.lookupNode hash = some p → p < bi.fresh
  live : ∀ {hash p}, bi.lookupNode hash = some p → p ∉ bi.pool
  pool_used : ∀ p ∈ bi.pool, p < bi.fresh
  pool_nodup : bi.pool.Nodup
  dirty : ∀ p ∈ bi.dirty, ∃ hash, bi.lookupNode hash = some p

theorem mem_nodes : p ∈ bi.nodes ↔ ∃ hash, bi.lookupNode hash = some p := mem_vals

namespace IndexSound

theorem lookup_inj (hs : bi.IndexSound) {hash hash' : Hash} (h : bi.lookupNode hash = some p)
    (h' : bi.lookupNode hash' = some p) : hash = hash' := (hs.hash h).symm.trans (hs.hash h')

theorem nodes_nodup (hs : bi.IndexSound) : bi.nodes.Nodup := by
  have hnd : bi.index.entries.Nodup := bi.index.nodupKeys.nodup
  refine hnd.map_on ?_
  rintro ⟨k, p⟩ hk ⟨k', p'⟩ hk' (rfl : p = p')
  have hkk' : k = k' := hs.lookup_inj (AList.mem_lookup_iff.2 hk) (AList.mem_lookup_iff.2 hk')
  rw [hkk']

theorem frame (hs : bi.IndexSound) (hindex : bi'.index = bi.index) (hfresh : bi.fresh ≤ bi'.fresh)
    (hpool : bi'.pool = bi.pool) (hdirty : ∀ p ∈ bi'.dirty, p ∈ bi.dirty ∨ ∃ hash, bi.lookupNode hash = some p)
    (hhash : ∀ p, p < bi.fresh → (bi'.mem p).hash = (bi.mem p).hash) : bi'.IndexSound := by
  have hlook : ∀ hash, bi'.lookupNode hash = bi.lookupNode hash := fun hash => by rw [lookupNode, hindex]; rfl
  constructor
  · intro hash p hp
    rw [hlook] at hp
    rw [hhash p (hs.used hp), hs.hash hp]
  · intro hash p hp
    rw [hlook] at hp
    exact Nat.lt_of_lt_of_le (hs.used hp) hfresh
  · intro hash p hp
    rw [hlook] at hp
    rw [hpool]
    exact hs.live hp
  · intro p hp
    rw [hpool] at hp
    exact Nat.lt_of_lt_of_le (hs.pool_used p hp) hfresh
  · rw [hpool]
    exact hs.pool_nodup
  · intro p hp
    obtain ⟨hash, hh⟩ := (hdirty p hp).elim (hs.dirty p) id
    exact ⟨hash, by rw [hlook, hh]⟩

end IndexSound

/-! ## Changing a node -/

theorem putStatus_ident (bi : BlockIndex) (p q : Ptr) (status : BlockStatus) :
    ((bi.putStatus p status).mem q).ident = (bi.mem q).ident := by
  simp only [putStatus, update_apply]
  split
  next h => rw [h]; rfl
  next => rfl

theorem mem_markDirty {p q : Ptr} : q ∈ (bi.markDirty p).dirty ↔ q = p ∨ q ∈ bi.dirty := by
  simp only [markDirty]
  split
  next h => exact ⟨.inr, fun hq => hq.elim (fun he => he ▸ h) id⟩
  next => exact mem_cons

theorem IndexSound.mark (hs : bi.IndexSound) (hp : bi.lookupNode hash = some p)
    (status : BlockStatus) : ((bi.putStatus p status).markDirty p).IndexSound := by
  refine hs.frame rfl le_rfl rfl (fun q hq => ?_) fun q _ => hash_of_ident (putStatus_ident bi p q status)
  rcases mem_markDirty.1 hq with rfl | hq
  · exact .inr ⟨hash, hp⟩
  · exact .inl hq

theorem relink_data (bi : BlockIndex) (p prev q : Ptr) : ((bi.relink p prev).mem q).data = (bi.mem q).data := by
  unfold relink
  split
  · by_cases h : q = p
    · subst h
      simp only [update_self]
      rfl
    · simp [update_of_ne h]
  · rfl

theorem relink_frame (bi : BlockIndex) (p prev : Ptr) :
    (bi.relink p prev).index = bi.index ∧ (bi.relink p prev).fresh = bi.fresh ∧ (bi.relink p prev).pool = bi.pool ∧
      (bi.relink p prev).dirty = bi.dirty := by
  unfold relink
  split <;> exact ⟨rfl, rfl, rfl, rfl⟩

theorem IndexSound.relink (hs : bi.IndexSound) (p prev : Ptr) : (bi.relink p prev).IndexSound := by
  obtain ⟨hindex, hfresh, hpool, hdirty⟩ := relink_frame bi p prev
  exact hs.frame hindex (Nat.le_of_eq hfresh.symm) hpool (fun q hq => .inl (hdirty ▸ hq))
    fun q _ => hash_of_ident (ident_of_data (relink_data bi p prev q))

theorem IndexSound.alloc (hs : bi.IndexSound) (node : BlockNode) : (bi.alloc node).IndexSound := by
  refine hs.frame rfl (Nat.le_succ _) rfl (fun q hq => .inl hq) fun q hq => ?_
  simp [BlockIndex.alloc, update_apply, if_neg (Nat.ne_of_lt hq)]

theorem lookupNode_removeNode (bi : BlockIndex) (hash x : Hash) :
    (bi.removeNode hash).lookupNode x = if x = hash then none else bi.lookupNode x := by
  unfold removeNode
  split
  next h =>
    split
    next hx => rw [hx, h]
    next => rfl
  next h =>
    simp only [lookupNode]
    split
    next hx => rw [hx, AList.lookup_erase]
    next hx => rw [AList.lookup_erase_ne hx]

theorem lookup_of_removeNode {x : Hash} {q : Ptr} (hq : (bi.removeNode hash).lookupNode x = some q) :
    x ≠ hash ∧ bi.lookupNode x = some q := by
  rwa [lookupNode_removeNode, ite_none_left_eq_some] at hq

theorem removeNode_frame (bi : BlockIndex) (hash : Hash) :
    (bi.removeNode hash).mem = bi.mem ∧ (bi.removeNode hash).fresh = bi.fresh ∧ (bi.removeNode hash).pool = bi.pool ∧
      (bi.removeNode hash).bestChain = bi.bestChain ∧ (bi.removeNode hash).bestHeader = bi.bestHeader ∧
      (bi.removeNode hash).windowSize = bi.windowSize := by
  unfold removeNode
  split <;> exact ⟨rfl, rfl, rfl, rfl, rfl, rfl⟩

theorem mem_dirty_removeNode {p q : Ptr} (hp : bi.lookupNode hash = some p) :
    q ∈ (bi.removeNode hash).dirty ↔ q ∈ bi.dirty ∧ q ≠ p := by
  simp [removeNode, hp]

theorem IndexSound.removeNode (hs : bi.IndexSound) (hp : bi.lookupNode hash = some p) :
    (bi.removeNode hash).IndexSound := by
  obtain ⟨hmem, hfresh, hpool, -⟩ := removeNode_frame bi hash
  have hlook {x q} (hq : (bi.removeNode hash).lookupNode x = some q) := (lookup_of_removeNode hq).2
  constructor
  · intro x q hq
    rw [hmem]
    exact hs.hash (hlook hq)
  · intro x q hq
    rw [hfresh]
    exact hs.used (hlook hq)
  · intro x q hq
    rw [hpool]
    exact hs.live (hlook hq)
  · rw [hpool, hfresh]
    exact hs.pool_used
  · rw [hpool]
    exact hs.pool_nodup
  · intro q hq
    rw [mem_dirty_removeNode hp] at hq
    obtain ⟨x, hx⟩ := hs.dirty q hq.1
    refine ⟨x, ?_⟩
    rw [lookupNode_removeNode, if_neg, hx]
    rintro rfl
    exact hq.2 (mem_unique hx hp)

/-! ## Evicting -/

theorem severAnchor_same (mem : Memory) (a : Option Ptr) (p : Ptr) : (severAnchor mem a p).data = (mem p).data := by
  rw [severAnchor_data]
  rfl

theorem evictWindow_data (bi : BlockIndex) (p : Ptr) : (bi.evictWindow.mem p).data = (bi.mem p).data := by
  unfold evictWindow
  split
  · rfl
  · rw [severAnchor_same, severAnchor_same]
    unfold severLinks
    split <;> rfl

theorem evictWindow_frame (bi : BlockIndex) :
    bi.evictWindow.fresh = bi.fresh ∧ bi.evictWindow.dirty = bi.dirty ∧ bi.evictWindow.pool = bi.evicted ++ bi.pool := by
  unfold evictWindow evicted
  split
  · simp
  · simp

theorem lookupNode_evictWindow (bi : BlockIndex) (hash : Hash) (p : Ptr) :
    bi.evictWindow.lookupNode hash = some p ↔ bi.lookupNode hash = some p ∧ p ∉ bi.evicted := by
  unfold evictWindow evicted
  split
  · simp
  · simp only [lookupNode, lookup_retain, filter_eq_some_iff, mem_filter, decide_eq_true_eq, not_and, and_congr_right_iff]
    exact fun hp => ⟨fun hout _ => hout, fun hout => hout (mem_nodes.2 ⟨hash, hp⟩)⟩

theorem evicted_subset (bi : BlockIndex) : bi.evicted.Sublist bi.nodes := by
  unfold evicted
  split
  · exact nil_sublist _
  · exact filter_sublist

theorem IndexSound.evictWindow (hs : bi.IndexSound) (hdirty : bi.dirty = []) : bi.evictWindow.IndexSound := by
  obtain ⟨hfresh, hd, hpool⟩ := evictWindow_frame bi
  have hin : ∀ q ∈ bi.evicted, ∃ hash, bi.lookupNode hash = some q :=
    fun q hq => mem_nodes.1 ((evicted_subset bi).subset hq)
  constructor
  · intro hash p hp
    rw [hash_of_ident (ident_of_data (evictWindow_data bi p))]
    exact hs.hash ((lookupNode_evictWindow bi hash p).1 hp).1
  · intro hash p hp
    rw [hfresh]
    exact hs.used ((lookupNode_evictWindow bi hash p).1 hp).1
  · intro hash p hp
    obtain ⟨hp, hout⟩ := (lookupNode_evictWindow bi hash p).1 hp
    rw [hpool, mem_append, not_or]
    exact ⟨hout, hs.live hp⟩
  · intro p hp
    rw [hfresh]
    rw [hpool, mem_append] at hp
    rcases hp with hp | hp
    · obtain ⟨hash, hh⟩ := hin p hp
      exact hs.used hh
    · exact hs.pool_used p hp
  · rw [hpool]
    refine Nodup.append (hs.nodes_nodup.sublist (evicted_subset bi)) hs.pool_nodup fun p hp hp' => ?_
    obtain ⟨hash, hh⟩ := hin p hp
    exact hs.live hh hp'
  · rw [hd, hdirty]
    exact fun p hp => absurd hp not_mem_nil

/-- What ends a flush: nothing is dirty, and there may be an eviction. -/
theorem finishFlush_eq (bi : BlockIndex) (forceEvict : Bool) : ∃ count, bi.finishFlush forceEvict =
      if bi.evicts forceEvict then { bi with dirty := [], evictCount := count }.evictWindow
      else { bi with dirty := [], evictCount := count } := by
  unfold finishFlush evicts
  cases forceEvict with
  | true => exact ⟨bi.evictCount, rfl⟩
  | false =>
    by_cases h : blockFlushBatchSize ≤ bi.evictCount + 1
    · exact ⟨0, by simp [h]⟩
    · exact ⟨bi.evictCount + 1, by simp [h]⟩

section FinishFlush
variable (bi) (forceEvict : Bool)

def leaves : List Ptr := if bi.evicts forceEvict then bi.evicted else []

theorem finishFlush_data (p : Ptr) : ((bi.finishFlush forceEvict).mem p).data = (bi.mem p).data := by
  obtain ⟨count, h⟩ := finishFlush_eq bi forceEvict
  rw [h]
  split
  · rw [evictWindow_data]
  · rfl

theorem finishFlush_frame : (bi.finishFlush forceEvict).fresh = bi.fresh ∧ (bi.finishFlush forceEvict).dirty = [] ∧
    (bi.finishFlush forceEvict).pool = bi.leaves forceEvict ++ bi.pool := by
  obtain ⟨count, h⟩ := finishFlush_eq bi forceEvict
  rw [h, leaves]
  split
  · exact evictWindow_frame _
  · exact ⟨rfl, rfl, rfl⟩

/-- What the end of a flush does to the views, and which nodes leave the index. -/
theorem finishFlush_views : ((bi.finishFlush forceEvict).bestChain = bi.bestChain ∧
      (bi.finishFlush forceEvict).bestHeader = bi.bestHeader ∧ bi.leaves forceEvict = []) ∨
    ∃ b, bi.bounds = some b ∧ (bi.finishFlush forceEvict).bestChain = bi.bestChain.pruneBelow b.chain ∧
      (bi.finishFlush forceEvict).bestHeader = bi.bestHeader.pruneBelow b.header ∧
      ∀ p ∈ bi.leaves forceEvict, bi.outOfWindow b p := by
  obtain ⟨count, h⟩ := finishFlush_eq bi forceEvict
  rw [h, leaves]
  split
  · cases hb : bi.bounds with
    | none =>
      have hsame : BlockIndex.evictWindow { bi with dirty := [], evictCount := count } =
          { bi with dirty := [], evictCount := count } := by
        rw [evictWindow, show bounds { bi with dirty := [], evictCount := count } = none from hb]
      rw [hsame, evicted, hb]
      exact .inl ⟨rfl, rfl, rfl⟩
    | some b =>
      rw [evictWindow, show bounds { bi with dirty := [], evictCount := count } = some b from hb]
      refine .inr ⟨b, rfl, rfl, rfl, fun p hp => ?_⟩
      rw [evicted, hb] at hp
      exact of_decide_eq_true (mem_filter.1 hp).2
  · exact .inl ⟨rfl, rfl, rfl⟩

variable {bi} {forceEvict} in
theorem parent_finishFlush {p q : Ptr} (h : ((bi.finishFlush forceEvict).mem p).parent = some q) :
    (bi.mem p).parent = some q := by
  have hcut : ∀ (mem : Memory) (bound : Int) (link : Option Ptr), cutBelow mem bound link = some q → link = some q :=
    fun mem bound link hq => (filter_eq_some_iff.1 hq).1
  obtain ⟨count, hf⟩ := finishFlush_eq bi forceEvict
  rw [hf] at h
  split at h
  · unfold evictWindow at h
    split at h
    · exact h
    · simp only [severAnchor_parent] at h
      split at h
      · cases h
      · split at h
        · cases h
        · simp only [severLinks] at h
          split at h
          · exact hcut _ _ _ h
          · exact h
  · exact h

theorem windowSize_finishFlush : (bi.finishFlush forceEvict).windowSize = bi.windowSize := by
  obtain ⟨count, h⟩ := finishFlush_eq bi forceEvict
  rw [h]
  split
  · unfold evictWindow
    split <;> rfl
  · rfl

theorem lookupNode_finishFlush (hash : Hash) (p : Ptr) :
    (bi.finishFlush forceEvict).lookupNode hash = some p ↔ bi.lookupNode hash = some p ∧ p ∉ bi.leaves forceEvict := by
  obtain ⟨count, h⟩ := finishFlush_eq bi forceEvict
  rw [h, leaves]
  split
  · exact lookupNode_evictWindow _ hash p
  · simp only [not_mem_nil, not_false_iff, and_true]
    rfl

end FinishFlush

theorem IndexSound.finishFlush (hs : bi.IndexSound) (forceEvict : Bool) : (bi.finishFlush forceEvict).IndexSound := by
  obtain ⟨count, h⟩ := finishFlush_eq bi forceEvict
  have hclean : IndexSound { bi with dirty := [], evictCount := count } :=
    hs.frame rfl le_rfl rfl (fun p hp => absurd hp not_mem_nil) fun _ _ => rfl
  rw [h]
  split
  · exact hclean.evictWindow rfl
  · exact hclean

theorem newPtr_cases (bi : BlockIndex) (recycled : Option Ptr) :
    bi.newPtr recycled ∈ bi.pool ∧ bi.pooled recycled = some (bi.newPtr recycled) ∨
      bi.newPtr recycled = bi.fresh ∧ bi.pooled recycled = none := by
  unfold newPtr
  cases h : bi.pooled recycled with
  | none => exact .inr ⟨rfl, rfl⟩
  | some p =>
    obtain ⟨-, hp⟩ := filter_eq_some_iff.1 h
    exact .inl ⟨of_decide_eq_true hp, rfl⟩

theorem newPtr_of_mem (hp : p ∈ bi.pool) : bi.newPtr (some p) = p := by
  have hpooled : bi.pooled (some p) = some p := filter_eq_some_iff.2 ⟨rfl, decide_eq_true hp⟩
  rw [newPtr, hpooled, getD_some]

theorem IndexSound.newPtr_fresh (hs : bi.IndexSound) (recycled : Option Ptr) {q : Ptr}
    (hq : bi.lookupNode hash = some q) : q ≠ bi.newPtr recycled := by
  rintro rfl
  rcases newPtr_cases bi recycled with ⟨h, -⟩ | ⟨h, -⟩
  · exact hs.live hq h
  · exact Nat.lt_irrefl _ (h ▸ hs.used hq)

end BlockIndex

namespace BlockChain

open BlockIndex

variable {params : ChainParams} {checkpoints : List Checkpoint} {b b' : BlockChain}

/-! ## Moving the header tip -/

/-- All but the header view and the count of headers is as before. -/
def HeaderMoved (b b' : BlockChain) : Prop :=
  ∃ view own count, b' = { b with bi := { b.bi with bestHeader := view }, ownHeader := own, headerFlushCount := count }

theorem headerMoved_setHeaderTip (b : BlockChain) (p : Ptr) : HeaderMoved b (b.setHeaderTip p) := by
  unfold setHeaderTip
  split <;> exact ⟨_, _, _, rfl⟩

theorem headerMoved_extendHeader (b : BlockChain) (p : Ptr) : HeaderMoved b (b.extendHeader p) := by
  unfold extendHeader
  split
  · exact ⟨_, _, _, rfl⟩
  · split
    · exact headerMoved_setHeaderTip b p
    · exact ⟨_, _, _, rfl⟩

theorem countHeader_eq (b : BlockChain) : ∃ count, b.countHeader.1 = { b with headerFlushCount := count } := by
  unfold countHeader
  split <;> exact ⟨_, rfl⟩

theorem HeaderMoved.countHeader (h : HeaderMoved b b') : HeaderMoved b b'.countHeader.1 := by
  obtain ⟨view, own, count, rfl⟩ := h
  obtain ⟨count', h⟩ := countHeader_eq
    { b with bi := { b.bi with bestHeader := view }, ownHeader := own, headerFlushCount := count }
  exact ⟨view, own, count', h⟩

theorem headerMoved_followBestChain (b : BlockChain) : HeaderMoved b b.followBestChain := by
  unfold followBestChain
  split
  · split
    · exact headerMoved_setHeaderTip b _
    · exact ⟨_, _, _, rfl⟩
  · exact ⟨_, _, _, rfl⟩

/-! ## Cold nodes -/

/-- What `materializeColdNode` gives: the node of the index, a cached cold node, or a new one made of the row. -/
theorem materializeColdNode_cases (b : BlockChain) (hash : Hash) :
    (b.materializeColdNode hash).2 = b ∧ (∀ p, (b.materializeColdNode hash).1 = some p →
      b.bi.lookupNode hash = some p ∨ b.bi.lookupNode hash = none ∧ b.coldCache.get hash = some p) ∨
    ∃ row height, b.bi.lookupNode hash = none ∧ b.coldCache.get hash = none ∧
      b.db.fetchBlockRowByHash hash = some (row, height) ∧
      b.materializeColdNode hash = (some b.bi.fresh,
        { b with bi := b.bi.alloc (b.coldNode hash row height), coldCache := b.coldCache.put hash b.bi.fresh }) := by
  unfold materializeColdNode
  split
  · exact .inl ⟨rfl, fun p hp => nomatch hp⟩
  · split
    next hp => exact .inl ⟨rfl, fun q hq => .inl (hp.trans hq)⟩
    next hp hc => exact .inl ⟨rfl, fun q hq => .inr ⟨hp, hc.trans hq⟩⟩
    next => exact .inl ⟨rfl, fun p hp => nomatch hp⟩
    next row height hp hc hrow => exact .inr ⟨row, height, hp, hc, hrow, rfl⟩

/-- All but the structs, the links and the cold cache is as before, with these checkpoint fields, and the structs in use
keep their data. -/
def Warmed (b : BlockChain) (node : Option Ptr) (next : Option Checkpoint) (b' : BlockChain) : Prop :=
  ∃ mem fresh cache, b' = { b with
      bi := { b.bi with mem, fresh }, coldCache := cache, checkpointNode := node, nextCheckpoint := next } ∧
    b.bi.fresh ≤ fresh ∧ ∀ p, p < b.bi.fresh → (mem p).data = (b.bi.mem p).data

theorem Warmed.refl (b : BlockChain) (node : Option Ptr) (next : Option Checkpoint) :
    Warmed b node next { b with checkpointNode := node, nextCheckpoint := next } :=
    ⟨_, _, _, rfl, le_rfl, fun _ _ => rfl⟩

theorem Warmed.trans {c : BlockChain} {node node' : Option Ptr} {next next' : Option Checkpoint} (h : Warmed b node next b')
    (h' : Warmed b' node' next' c) : Warmed b node' next' c := by
  obtain ⟨mem, fresh, cache, rfl, hle, hdata⟩ := h
  obtain ⟨mem', fresh', cache', rfl, hle', hdata'⟩ := h'
  refine ⟨mem', fresh', cache', rfl, Nat.le_trans hle hle', fun p hp => ?_⟩
  exact (hdata' p (Nat.lt_of_lt_of_le hp hle)).trans (hdata p hp)

theorem warmed_setParent (b : BlockChain) (p : Ptr) (q : Option Ptr) : Warmed b b.checkpointNode b.nextCheckpoint
    { b with bi := { b.bi with mem := update b.bi.mem p { b.bi.mem p with parent := q } } } := by
  refine ⟨_, _, _, rfl, le_rfl, fun r _ => ?_⟩
  rw [update_apply]
  split
  next h => rw [h]; rfl
  next => rfl

theorem warmed_relink (b : BlockChain) (p prev : Ptr) :
    Warmed b b.checkpointNode b.nextCheckpoint { b with bi := b.bi.relink p prev } := by
  have hdata := fun q (_ : q < b.bi.fresh) => relink_data b.bi p prev q
  revert hdata
  unfold BlockIndex.relink
  split <;> exact fun hdata => ⟨_, _, _, rfl, le_rfl, hdata⟩

theorem warmed_materializeColdNode (b : BlockChain) (hash : Hash) :
    Warmed b b.checkpointNode b.nextCheckpoint (b.materializeColdNode hash).2 := by
  rcases materializeColdNode_cases b hash with ⟨h, -⟩ | ⟨row, height, -, -, -, h⟩
  · rw [h]
    exact .refl b _ _
  · rw [h]
    refine ⟨_, _, _, rfl, Nat.le_succ _, fun p hp => ?_⟩
    rw [update_of_ne (Nat.ne_of_lt hp)]

theorem warmed_repairFrom (depth : Nat) (cur : Ptr) (b : BlockChain) :
    Warmed b b.checkpointNode b.nextCheckpoint (repairFrom depth cur b) := by
  induction depth generalizing cur b with
  | zero => exact .refl b _ _
  | succ depth ih =>
    rw [repairFrom]
    split
    · exact ih _ _
    · split
      · exact .refl b _ _
      · have hcold := warmed_materializeColdNode b (b.bi.mem cur).parentHash
        split
        next heq => rw [heq] at hcold; exact hcold
        next q c heq =>
          rw [heq] at hcold
          have hrest := (warmed_setParent c cur (some q)).trans (ih q _)
          have hfields := hcold
          obtain ⟨mem, fresh, cache, rfl, -⟩ := hfields
          exact hcold.trans hrest

theorem warmed_fetchCheckpoint (b : BlockChain) (hash : Hash) :
    Warmed b b.checkpointNode b.nextCheckpoint (b.fetchCheckpoint hash).2 := by
  unfold fetchCheckpoint
  split
  · exact .refl b _ _
  · exact warmed_materializeColdNode b hash

/-- What `findPreviousCheckpoint` changes besides the two fields it keeps: a cold node may be made. -/
theorem findPreviousCheckpoint_state (checkpoints : List Checkpoint) (b : BlockChain) : ∃ node next,
    (b.findPreviousCheckpoint checkpoints).2 = { b with checkpointNode := node, nextCheckpoint := next } ∨
      ∃ hash, (b.findPreviousCheckpoint checkpoints).2 =
        { (b.fetchCheckpoint hash).2 with checkpointNode := node, nextCheckpoint := next } := by
  unfold findPreviousCheckpoint
  split
  · exact ⟨_, _, .inl rfl⟩
  · split <;> exact ⟨_, _, .inl rfl⟩
  · exact ⟨_, _, .inl rfl⟩
  · split
    · exact ⟨_, _, .inl rfl⟩
    · split
      · exact ⟨_, _, .inl rfl⟩
      · split
        next c heq => exact ⟨_, _, .inr ⟨_, by rw [heq]⟩⟩
        next q c heq => exact ⟨_, _, .inr ⟨_, by rw [heq]⟩⟩

theorem warmed_checkpoint (checkpoints : List Checkpoint) (b : BlockChain) :
    let b' := (b.findPreviousCheckpoint checkpoints).2
    Warmed b b'.checkpointNode b'.nextCheckpoint b' := by
  obtain ⟨node, next, h | ⟨hash, h⟩⟩ := findPreviousCheckpoint_state checkpoints b
  · rw [h]
    exact .refl b _ _
  · rw [h]
    exact (warmed_fetchCheckpoint b hash).trans (.refl _ _ _)

/-! ## A new node -/

section MakeNode
variable {header : BlockHeader} {prev : Ptr} {recycled : Option Ptr} {status : BlockStatus}

theorem makeNode_mem_self : (b.makeNode params header prev recycled status).bi.mem (b.bi.newPtr recycled) =
    { parent := some prev
      ancestor := ((b.makeNode params header prev recycled status).bi.mem (b.bi.newPtr recycled)).ancestor
      hash := params.blockHash header
      header
      workSum := (b.bi.mem prev).workSum + calcWork header.bits
      height := (b.bi.mem prev).height + 1
      status } := by
  simp only [makeNode, addDirtyNode, addNode, markDirty, putStatus, newBlockNode, update_self]
  rfl

theorem makeNode_mem_ne {q : Ptr} (hq : q ≠ b.bi.newPtr recycled) :
    (b.makeNode params header prev recycled status).bi.mem q = b.bi.mem q := by
  simp [makeNode, addDirtyNode, addNode, markDirty, putStatus, newBlockNode, update_of_ne hq]

theorem lookupNode_makeNode (x : Hash) : (b.makeNode params header prev recycled status).bi.lookupNode x =
    if x = params.blockHash header then some (b.bi.newPtr recycled) else b.bi.lookupNode x := by
  have hhash : (((b.bi.newBlockNode params header (some prev) recycled).putStatus (b.bi.newPtr recycled) status).mem
      (b.bi.newPtr recycled)).hash = params.blockHash header := by
    simp only [putStatus, newBlockNode, update_self]
    rfl
  simp only [makeNode, addDirtyNode, addNode, markDirty, lookupNode, hhash]
  split
  next h => rw [h, AList.lookup_insert]
  next h => rw [AList.lookup_insert_ne h]; rfl

theorem lookupNode_makeNode_old {x : Hash} {q : Ptr} (hnew : b.bi.lookupNode (params.blockHash header) = none)
    (hq : b.bi.lookupNode x = some q) : (b.makeNode params header prev recycled status).bi.lookupNode x = some q := by
  rw [lookupNode_makeNode, if_neg, hq]
  rintro rfl
  cases hnew.symm.trans hq

theorem mem_dirty_makeNode {q : Ptr} : q ∈ (b.makeNode params header prev recycled status).bi.dirty ↔
    q = b.bi.newPtr recycled ∨ q ∈ b.bi.dirty := mem_markDirty

theorem makeNode_fresh : (b.makeNode params header prev recycled status).bi.fresh =
    if (b.bi.pooled recycled).isSome then b.bi.fresh else b.bi.fresh + 1 := rfl

theorem le_makeNode_fresh : b.bi.fresh ≤ (b.makeNode params header prev recycled status).bi.fresh := by
  rw [makeNode_fresh]
  split
  · exact le_rfl
  · exact Nat.le_succ _

theorem newPtr_lt_makeNode_fresh (hs : b.bi.IndexSound) :
    b.bi.newPtr recycled < (b.makeNode params header prev recycled status).bi.fresh := by
  rw [makeNode_fresh]
  rcases newPtr_cases b.bi recycled with ⟨hp, h⟩ | ⟨hp, h⟩
  · rw [h]
    exact hs.pool_used _ hp
  · rw [h, hp]
    exact Nat.lt_succ_self _

theorem makeNode_indexSound (hs : b.bi.IndexSound) (hnew : b.bi.lookupNode (params.blockHash header) = none) :
    (b.makeNode params header prev recycled status).bi.IndexSound := by
  constructor
  · intro x q hq
    rw [lookupNode_makeNode] at hq
    split at hq
    next hx =>
      cases hq
      rw [makeNode_mem_self, hx]
    next => rw [makeNode_mem_ne (hs.newPtr_fresh recycled hq), hs.hash hq]
  · intro x q hq
    rw [lookupNode_makeNode] at hq
    split at hq
    · cases hq
      exact newPtr_lt_makeNode_fresh hs
    · exact Nat.lt_of_lt_of_le (hs.used hq) le_makeNode_fresh
  · intro x q hq
    rw [lookupNode_makeNode] at hq
    split at hq
    · cases hq
      exact hs.pool_nodup.not_mem_erase
    · exact fun h => hs.live hq (mem_of_mem_erase h)
  · intro q hq
    exact Nat.lt_of_lt_of_le (hs.pool_used q (mem_of_mem_erase hq)) le_makeNode_fresh
  · exact hs.pool_nodup.erase _
  · intro q hq
    rcases mem_dirty_makeNode.1 hq with rfl | hq
    · exact ⟨params.blockHash header, by rw [lookupNode_makeNode, if_pos rfl]⟩
    · obtain ⟨x, hx⟩ := hs.dirty q hq
      exact ⟨x, lookupNode_makeNode_old hnew hx⟩

theorem newBlockNode_mem_ne {parent : Option Ptr} {q : Ptr} (hq : q ≠ b.bi.newPtr recycled) :
    (b.bi.newBlockNode params header parent recycled).mem q = b.bi.mem q := by
  simp [newBlockNode, update_of_ne hq]

theorem le_newBlockNode_fresh : b.bi.fresh ≤ (b.bi.newBlockNode params header (some prev) recycled).fresh :=
  @le_makeNode_fresh params b header prev recycled {}

theorem newBlockNode_indexSound (hs : b.bi.IndexSound) :
    (b.bi.newBlockNode params header (some prev) recycled).IndexSound where
  hash {x q} hq := by rw [newBlockNode_mem_ne (hs.newPtr_fresh recycled hq), hs.hash hq]
  used hq := Nat.lt_of_lt_of_le (hs.used hq) le_newBlockNode_fresh
  live hq h := hs.live hq (mem_of_mem_erase h)
  pool_used q hq := Nat.lt_of_lt_of_le (hs.pool_used q (mem_of_mem_erase hq)) le_newBlockNode_fresh
  pool_nodup := hs.pool_nodup.erase _
  dirty := hs.dirty

end MakeNode

/-! ## The writer -/

/-- What every item of the queue keeps, and the marks leave alone, the writer keeps. -/
theorem writer_keeps {I : Db → Prop} (h : I b.db)
    (hitem : ∀ item ∈ b.queue, ∀ {db d}, I db → writeItem db item = some d → I d)
    (hmarks : ∀ {db marker watermark}, I db → I (db.withMarks marker watermark)) :
    (∀ n ok, I (b.commit n ok).db) ∧ ∀ maxHeight batched, I (b.syncNowBelow maxHeight batched).db := by
  have hitems : ∀ {items db d}, (∀ item ∈ items, item ∈ b.queue) → I db → writeItems db items = some d →
      I d := by
    intro items
    induction items with
    | nil => rintro db d - hdb ⟨⟩; exact hdb
    | cons item items ih =>
      intro db d hq hdb hw
      obtain ⟨db1, hone, hw⟩ := bind_eq_some_iff.1 hw
      exact ih (fun i hi => hq i (mem_cons_of_mem _ hi)) (hitem item (hq item mem_cons_self) hdb hone) hw
  have hbatch : ∀ {items db}, (∀ item ∈ items, item ∈ b.queue) → I db → I ((flushBatch db items).getD db) := by
    intro items db hq hdb
    cases hw : flushBatch db items with
    | none => exact hdb
    | some d =>
      rcases flushBatch_eq hw with ⟨-, rfl⟩ | ⟨last, d, -, hd, rfl⟩
      · exact hdb
      · exact hmarks (hitems hq hdb hd)
  refine ⟨fun n ok => ?_, fun maxHeight batched => ?_⟩
  · cases ok with
    | false => exact h
    | true => exact hbatch (fun _ => mem_of_mem_take) h
  · refine hbatch (fun _ hi => mem_of_mem_drop (mem_filter.1 hi).1) ?_
    exact hbatch (fun _ hi => mem_of_mem_take (mem_filter.1 hi).1) h

/-! ## Every step -/

theorem indexSound_headerMoved (hs : b.bi.IndexSound) (h : HeaderMoved b b') : b'.bi.IndexSound := by
  obtain ⟨view, own, count, rfl⟩ := h
  exact hs.frame rfl le_rfl rfl (fun _ hp => .inl hp) fun _ _ => rfl

theorem indexSound_warmed {node : Option Ptr} {next : Option Checkpoint} (hs : b.bi.IndexSound) (h : Warmed b node next b') :
    b'.bi.IndexSound := by
  obtain ⟨mem, fresh, cache, rfl, hle, hdata⟩ := h
  refine hs.frame rfl hle rfl (fun _ hp => .inl hp) fun p hp => ?_
  exact hash_of_ident (ident_of_data (hdata p hp))

theorem indexSound_move (hs : b.bi.IndexSound) {a : ChainStep} (hm : Move params checkpoints b a b') : b'.bi.IndexSound := by
  cases hm with
  | headerOld => exact indexSound_headerMoved hs (headerMoved_extendHeader b _).countHeader
  | headerNew _ hnew =>
    exact indexSound_headerMoved (makeNode_indexSound hs hnew) (headerMoved_extendHeader _ _).countHeader
  | blockOld _ hp => exact (hs.mark hp _).relink _ _
  | blockNew _ hnew => exact makeNode_indexSound hs hnew
  | flush forceEvict ok =>
    unfold flushToDB
    split
    · exact hs
    · exact hs.finishFlush forceEvict
  | connect | connectLost =>
    exact (hs.finishFlush false).frame rfl le_rfl rfl (fun _ hp => .inl hp) fun _ _ => rfl
  | headerTip => exact indexSound_headerMoved hs (headerMoved_followBestChain b)
  | setStatus hp => exact hs.mark hp _
  | unsetStatus hp => exact hs.mark hp _
  | lookup => exact indexSound_warmed hs (warmed_materializeColdNode b _)
  | repair => exact indexSound_warmed hs (warmed_repairFrom _ _ b)
  | checkpoint => exact indexSound_warmed hs (warmed_checkpoint checkpoints b)
  | remove hp => exact hs.removeNode hp
  | template => exact newBlockNode_indexSound hs
  | headerKnown | commit | disconnectFailed => exact hs
  | disconnect | rebuildHeader | rollback | rollbackFailed =>
    exact hs.frame rfl le_rfl rfl (fun _ hp => .inl hp) fun _ _ => rfl

end BlockChain

end IniNode
