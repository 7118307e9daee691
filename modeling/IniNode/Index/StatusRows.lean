import IniNode.Index.Stored
import IniNode.Index.Sync
/-!
# The status of a node and the status in its row

A changed node is dirty until its row is written, by `flushToDB` at once or by the writer when it comes to the
item that took the row along. `Settled` says that a node that is not dirty will have its status in its row once
the queue is drained. It is lost when a row that waits in the queue is older than one that `flushToDB` writes
past it, and when rows are dropped with their items; without these, `status_rows_agree` holds of every run.
-/

open IniNode.Lib List Option

namespace IniNode.BlockChain

open BlockIndex WriteItem Store

variable {params : ChainParams} {checkpoints : List Checkpoint} {b b' : BlockChain} {items : List WriteItem}

/-! ## The rows of the block index bucket -/

def rowWrites (items : List WriteItem) : List (Write (Int × Hash) NodeRow) :=
  items.flatMap fun item => item.nodeRows.map rowWrite

theorem isSome_rowWrites : ∀ w ∈ rowWrites items, w.value.isSome := by
  intro w hw
  obtain ⟨item, -, hw⟩ := mem_flatMap.1 hw
  obtain ⟨r, -, rfl⟩ := List.mem_map.1 hw
  rfl

theorem blockIndex_flushToDB (db : Db) (rows : List NodeRowSnapshot) (bestHeader : Option (Hash × Int)) :
    (AsyncChain.flushToDB db rows bestHeader).blockIndex = db.blockIndex.writeAll (rows.map rowWrite) := by
  rw [← blockIndex_foldl]
  cases bestHeader <;> rfl

theorem writeAll_rowWrites_cons (s : Store (Int × Hash) NodeRow) (item : WriteItem) (items : List WriteItem) :
    s.writeAll (rowWrites (item :: items)) = (s.writeAll (item.nodeRows.map rowWrite)).writeAll (rowWrites items) := by
  rw [rowWrites, flatMap_cons, writeAll_append]
  rfl

theorem rowWrites_append (items items' : List WriteItem) :
    rowWrites (items ++ items') = rowWrites items ++ rowWrites items' :=
  flatMap_append

theorem blockIndex_flushBatch {db db' : Db} (h : flushBatch db items = some db') :
    db'.blockIndex = db.blockIndex.writeAll (rowWrites items) := by
  have hitems : ∀ {items db d}, writeItems db items = some d →
      d.blockIndex = db.blockIndex.writeAll (rowWrites items) := by
    intro items
    induction items with
    | nil => rintro db d ⟨⟩; rfl
    | cons item items ih =>
      intro db d hw
      obtain ⟨db1, hitem, hw⟩ := bind_eq_some_iff.1 hw
      obtain ⟨disk, -, rfl⟩ := writeItem_eq hitem
      rw [ih hw, writeAll_rowWrites_cons, ← blockIndex_foldl]
  rcases flushBatch_eq h with ⟨rfl, rfl⟩ | ⟨last, d, -, hd, rfl⟩
  · rfl
  · exact (hitems hd : d.blockIndex = _)

theorem writeAll_rowWrites_filter {keep : WriteItem → Bool} {k : Int × Hash}
    (h : ∀ item ∈ items, keep item = false → ∀ r ∈ item.nodeRows, (r.height, r.hash) ≠ k)
    (s : Store (Int × Hash) NodeRow) :
    s.writeAll (rowWrites (items.filter keep)) k = s.writeAll (rowWrites items) k := by
  induction items generalizing s with
  | nil => rfl
  | cons item items ih =>
    have ih := ih fun i hi => h i (mem_cons_of_mem _ hi)
    rw [writeAll_rowWrites_cons]
    cases hk : keep item with
    | true =>
      rw [filter_cons_of_pos hk, writeAll_rowWrites_cons]
      exact ih _
    | false =>
      rw [filter_cons_of_neg (by simp [hk]), ih]
      apply writeAll_congr
      rw [writeAll_untouched]
      intro hmem
      obtain ⟨w, hw, hwk⟩ := List.mem_map.1 hmem
      obtain ⟨r, hr, rfl⟩ := List.mem_map.1 hw
      exact h item mem_cons_self hk r hr hwk

/-! ## Settled nodes -/

def drainedRows (b : BlockChain) : Store (Int × Hash) NodeRow := b.db.blockIndex.writeAll (rowWrites b.queue)

def rowKey (b : BlockChain) (p : Ptr) : Int × Hash := ((b.bi.mem p).height, (b.bi.mem p).hash)

/-- The newest row that waits in the queue under the key, if there is one. -/
def queuedRow (b : BlockChain) (k : Int × Hash) : Option NodeRow := writeAll (fun _ => none) (rowWrites b.queue) k

/-- The row under the node's key has the status of the node. -/
def HasStatus (b : BlockChain) (rows : Store (Int × Hash) NodeRow) (p : Ptr) : Prop :=
  ∃ row, rows (b.rowKey p) = some row ∧ row.status = (b.bi.mem p).status

/-- Every node of the index that is not dirty has its status in its row once the queue is drained. -/
def Settled (b : BlockChain) : Prop :=
  ∀ hash p, b.bi.lookupNode hash = some p → p ∉ b.bi.dirty → b.HasStatus b.drainedRows p

theorem writeAll_snapshotDirty (hs : b.bi.IndexSound) (s : Store (Int × Hash) NodeRow) {hash : Hash} {p : Ptr}
    (hp : b.bi.lookupNode hash = some p) :
    s.writeAll (b.bi.snapshotDirty.map rowWrite) (b.rowKey p) =
      if p ∈ b.bi.dirty then some ⟨(b.bi.mem p).header, (b.bi.mem p).status⟩ else s (b.rowKey p) := by
  -- only the node itself has its key among the nodes of the index
  have hown : ∀ q ∈ b.bi.dirty, b.rowKey q = b.rowKey p → q = p := by
    intro q hq hk
    obtain ⟨x, hx⟩ := hs.dirty q hq
    have hhash : (b.bi.mem q).hash = (b.bi.mem p).hash := congrArg Prod.snd hk
    rw [hs.hash hx, hs.hash hp] at hhash
    rw [hhash, hp] at hx
    exact (Option.some.inj hx).symm
  have key : ∀ ptrs : List Ptr, ptrs ⊆ b.bi.dirty → ∀ s : Store (Int × Hash) NodeRow,
      s.writeAll ((ptrs.map b.bi.nodeRow).map rowWrite) (b.rowKey p) =
        if p ∈ ptrs then some ⟨(b.bi.mem p).header, (b.bi.mem p).status⟩ else s (b.rowKey p) := by
    intro ptrs
    induction ptrs with
    | nil => intro _ s; rfl
    | cons q ptrs ih =>
      intro hsub s
      obtain ⟨hq, hsub⟩ := cons_subset.1 hsub
      rw [map_cons, map_cons, writeAll_cons, ih hsub]
      by_cases hqp : q = p
      · subst hqp
        simp only [mem_cons]
        split
        · rfl
        · exact if_pos rfl
      · have hkey : b.rowKey p ≠ (rowWrite (b.bi.nodeRow q)).key := fun hk => hqp (hown q hq hk.symm)
        simp [Ne.symm hqp, if_neg hkey]
  exact key b.bi.dirty (List.Subset.refl _) s

/-! ## What keeps them settled -/

theorem HasStatus.data {rows : Store (Int × Hash) NodeRow} {p : Ptr} (h : b.HasStatus rows p)
    (hdata : (b'.bi.mem p).data = (b.bi.mem p).data) : b'.HasStatus rows p := by
  have hident := BlockNode.ident_of_data hdata
  have hkey : b'.rowKey p = b.rowKey p := Prod.ext (BlockNode.height_of_ident hident) (BlockNode.hash_of_ident hident)
  rw [HasStatus, hkey, BlockNode.status_of_data hdata]
  exact h

theorem Settled.frame (h : b.Settled) (hrows : b'.drainedRows = b.drainedRows)
    (hnodes : ∀ x p, b'.bi.lookupNode x = some p → p ∉ b'.bi.dirty →
      b.bi.lookupNode x = some p ∧ p ∉ b.bi.dirty ∧ (b'.bi.mem p).data = (b.bi.mem p).data) : b'.Settled := by
  intro x p hp hclean
  obtain ⟨hp, hclean, hdata⟩ := hnodes x p hp hclean
  rw [hrows]
  exact (h x p hp hclean).data hdata

theorem settled_finishFlush (h : ∀ x p, b.bi.lookupNode x = some p → b.HasStatus b.drainedRows p) (forceEvict : Bool) :
    (b.finishFlush forceEvict).Settled := by
  intro x p hp _
  have hp := ((lookupNode_finishFlush b.bi forceEvict x p).1 hp).1
  exact (h x p hp).data (finishFlush_data b.bi forceEvict p)

/-- The batches that `syncNowBelow` makes are committed. -/
def SyncCommits (b : BlockChain) (maxHeight : Int) (batched : Nat) : Prop :=
  ∃ db1 db2, flushBatch b.db ((b.queue.take batched).filter (keptBelow maxHeight)) = some db1 ∧
    flushBatch db1 ((b.queue.drop batched).filter (keptBelow maxHeight)) = some db2

/-- What the steps have to meet so that no status is lost. A flush writes past no queued row with another status;
rows that are not written, because the queue was stopped, a transaction failed or a disconnect drops their item,
are those of no node or of nodes whose status is stored anyway. -/
def LosesNoStatus (b : BlockChain) : ChainStep → Prop
  | .flush _ ok => ok = true → ∀ p ∈ b.bi.dirty, ∀ row, b.queuedRow (b.rowKey p) = some row →
      row.status = (b.bi.mem p).status
  | .connect _ _ enqueued => enqueued = true ∨ b.bi.dirty = []
  | .commit n ok => ok = true ∧ (flushBatch b.db (b.queue.take n)).isSome ∨ ∀ item ∈ b.queue.take n,
    item.nodeRows = []
  | .disconnect prev _ batched _ => b.SyncCommits (b.bi.mem prev).height batched ∧
      ∀ item ∈ b.queue, keptBelow (b.bi.mem prev).height item = false → ∀ r ∈ item.nodeRows,
        ∀ p, b.bi.lookupNode r.hash = some p → p ∉ b.bi.dirty → b.HasStatus
          (b.db.blockIndex.writeAll (rowWrites (b.queue.filter (keptBelow (b.bi.mem prev).height)))) p
  | _ => True

theorem drainedRows_commit {n : Nat} {ok : Bool} (h : b.LosesNoStatus (.commit n ok)) :
    (b.commit n ok).drainedRows = b.drainedRows := by
  have hsplit : b.drainedRows =
      (b.db.blockIndex.writeAll (rowWrites (b.queue.take n))).writeAll (rowWrites (b.queue.drop n)) := by
    rw [drainedRows, ← writeAll_append, ← rowWrites_append, take_append_drop]
  rw [hsplit]
  unfold BlockChain.commit drainedRows
  rcases h with ⟨rfl, hcommit⟩ | hnone
  · obtain ⟨db', hdb'⟩ := isSome_iff_exists.1 hcommit
    rw [if_pos rfl, hdb', getD_some, blockIndex_flushBatch hdb']
  · have hnil : rowWrites (b.queue.take n) = [] := by
      rw [rowWrites, flatMap_eq_nil_iff]
      intro item hi
      rw [hnone item hi, map_nil]
    rw [hnil, writeAll_nil]
    split
    · cases hdb : flushBatch b.db (b.queue.take n) with
      | none => rfl
      | some db' =>
        have := blockIndex_flushBatch hdb
        rw [hnil, writeAll_nil] at this
        rw [getD_some, this]
    · rfl

theorem blockIndex_syncNowBelow {maxHeight : Int} {batched : Nat} (h : b.SyncCommits maxHeight batched) :
    (b.syncNowBelow maxHeight batched).db.blockIndex =
      b.db.blockIndex.writeAll (rowWrites (b.queue.filter (keptBelow maxHeight))) := by
  obtain ⟨db1, db2, h1, h2⟩ := h
  have hsplit : b.queue.filter (keptBelow maxHeight) =
      (b.queue.take batched).filter (keptBelow maxHeight) ++
        (b.queue.drop batched).filter (keptBelow maxHeight) := by
    rw [← filter_append, take_append_drop]
  simp only [syncNowBelow, h1, getD_some, h2]
  rw [blockIndex_flushBatch h2, blockIndex_flushBatch h1, hsplit, rowWrites_append, writeAll_append]

theorem settled_syncNowBelow (hs : b.bi.IndexSound) (h : b.Settled) {prev : Ptr} {totalTxns : UInt64} {batched : Nat}
    {ok : Bool} (hok : b.LosesNoStatus (.disconnect prev totalTxns batched ok)) :
    (b.syncNowBelow (b.bi.mem prev).height batched).Settled := by
  obtain ⟨hcommits, hdropped⟩ := hok
  intro x p hp hclean
  have hrows : (b.syncNowBelow (b.bi.mem prev).height batched).drainedRows =
      b.db.blockIndex.writeAll (rowWrites (b.queue.filter (keptBelow (b.bi.mem prev).height))) :=
    blockIndex_syncNowBelow hcommits
  rw [hrows]
  by_cases hex : ∃ item ∈ b.queue, keptBelow (b.bi.mem prev).height item = false ∧
      ∃ r ∈ item.nodeRows, (r.height, r.hash) = b.rowKey p
  · obtain ⟨item, hitem, hkept, r, hr, hkey⟩ := hex
    refine hdropped item hitem hkept r hr p ?_ hclean
    rw [show r.hash = (b.bi.mem p).hash from congrArg Prod.snd hkey, hs.hash hp]
    exact hp
  · obtain ⟨row, hrow, hstatus⟩ := h x p hp hclean
    refine ⟨row, ?_, hstatus⟩
    rw [writeAll_rowWrites_filter, ← hrow]
    · rfl
    · intro item hitem hkept r hr hkey
      exact hex ⟨item, hitem, hkept, r, hr, hkey⟩

theorem blockIndex_disconnectTx (b : BlockChain) (node prev : Ptr) (totalTxns : UInt64) :
    (b.disconnectTx node prev totalTxns).blockIndex = b.db.blockIndex := by
  dsimp only [disconnectTx]
  cases (b.bi.mem node).parent <;> rfl

theorem settled_disconnected (h : b.Settled) (node prev : Ptr) (totalTxns : UInt64) :
    (b.disconnected node prev totalTxns).Settled := by
  refine h.frame ?_ fun x p hp hclean => ⟨hp, hclean, rfl⟩
  change (b.disconnectTx node prev totalTxns).blockIndex.writeAll (rowWrites b.queue) = b.drainedRows
  rw [blockIndex_disconnectTx]
  rfl

theorem settled_flushToDB (hs : b.bi.IndexSound) (h : b.Settled) {forceEvict ok : Bool}
    (hok : b.LosesNoStatus (.flush forceEvict ok)) : (b.flushToDB forceEvict ok).Settled := by
  unfold flushToDB
  split
  · exact h
  next hcond =>
    rw [not_or, Bool.not_eq_false] at hcond
    apply settled_finishFlush
    intro x p hp
    -- what waits in the queue under the key comes after the row that is written now
    have hrows : drainedRows { b with db := AsyncChain.flushToDB b.db b.bi.snapshotDirty b.headerState } (b.rowKey p) =
        (b.queuedRow (b.rowKey p)).or (if p ∈ b.bi.dirty then some ⟨(b.bi.mem p).header, (b.bi.mem p).status⟩
          else b.db.blockIndex (b.rowKey p)) := by
      rw [← writeAll_snapshotDirty hs b.db.blockIndex hp, ← blockIndex_flushToDB _ _ b.headerState]
      exact writeAll_or isSome_rowWrites _ _
    change ∃ row, drainedRows _ (b.rowKey p) = some row ∧ row.status = (b.bi.mem p).status
    rw [hrows]
    by_cases hdirty : p ∈ b.bi.dirty
    · rw [if_pos hdirty]
      cases hq : b.queuedRow (b.rowKey p) with
      | none => exact ⟨_, rfl, rfl⟩
      | some row => exact ⟨row, rfl, hok hcond.2 p hdirty row hq⟩
    · rw [if_neg hdirty]
      obtain ⟨row, hrow, hstatus⟩ := h x p hp hdirty
      refine ⟨row, ?_, hstatus⟩
      rw [← hrow]
      exact (writeAll_or isSome_rowWrites _ _).symm

theorem settled_connected (hs : b.bi.IndexSound) (h : b.Settled) (node : Ptr) (hash : Hash) (item : WriteItem) :
    (b.connected node hash item).Settled := by
  intro x p hp _
  have hp := ((lookupNode_finishFlush b.bi false x p).1 hp).1
  -- the item takes the rows of the dirty nodes along
  have hrows : (b.connected node hash item).drainedRows (b.rowKey p) =
      if p ∈ b.bi.dirty then some ⟨(b.bi.mem p).header, (b.bi.mem p).status⟩ else b.drainedRows (b.rowKey p) := by
    rw [← writeAll_snapshotDirty hs b.drainedRows hp]
    change b.db.blockIndex.writeAll (rowWrites (b.queue ++ [b.itemFor node item])) _ = _
    rw [rowWrites_append, writeAll_append]
    simp only [rowWrites, flatMap_singleton]
    rfl
  have hstatus : b.HasStatus (b.connected node hash item).drainedRows p := by
    rw [HasStatus, hrows]
    by_cases hdirty : p ∈ b.bi.dirty
    · rw [if_pos hdirty]
      exact ⟨_, rfl, rfl⟩
    · rw [if_neg hdirty]
      exact h x p hp hdirty
  exact hstatus.data (finishFlush_data b.bi false p)

theorem settled_makeNode (h : b.Settled) (header : BlockHeader) (prev : Ptr) (recycled : Option Ptr)
    (status : BlockStatus) : (b.makeNode params header prev recycled status).Settled := by
  refine h.frame rfl ?_
  intro x p hp hclean
  rw [mem_dirty_makeNode, not_or] at hclean
  rw [lookupNode_makeNode] at hp
  split at hp
  · exact absurd (Option.some.inj hp).symm hclean.1
  · exact ⟨hp, hclean.2, by rw [makeNode_mem_ne hclean.1]⟩

theorem settled_mark (h : b.Settled) (p : Ptr) (status : BlockStatus) :
    ({ b with bi := (b.bi.putStatus p status).markDirty p } : BlockChain).Settled := by
  refine h.frame rfl ?_
  intro x q hq hclean
  rw [mem_markDirty, not_or] at hclean
  refine ⟨hq, hclean.2, ?_⟩
  simp [putStatus, markDirty, Function.update_of_ne hclean.1]

theorem Settled.headerMoved (h : b.Settled) (hm : HeaderMoved b b') : b'.Settled := by
  obtain ⟨view, own, count, rfl⟩ := hm
  exact h.frame rfl fun x p hp hclean => ⟨hp, hclean, rfl⟩

theorem Settled.warmed {node : Option Ptr} {next : Option Checkpoint} (hs : b.bi.IndexSound) (h : b.Settled)
    (hw : Warmed b node next b') : b'.Settled := by
  obtain ⟨mem, fresh, cache, rfl, -, hdata⟩ := hw
  exact h.frame rfl fun x p hp hclean => ⟨hp, hclean, hdata p (hs.used hp)⟩

theorem Settled.move (hs : b.bi.IndexSound) (h : b.Settled) {a : ChainStep} (hok : b.LosesNoStatus a)
    (hm : Move params checkpoints b a b') : b'.Settled := by
  cases hm with
  | headerKnown => exact h
  | headerOld => exact h.headerMoved (headerMoved_extendHeader b _).countHeader
  | headerNew => exact (settled_makeNode h _ _ _ _).headerMoved (headerMoved_extendHeader _ _).countHeader
  | blockOld _ hp => exact (settled_mark h _ _).warmed (hs.mark hp _) (warmed_relink _ _ _)
  | blockNew => exact settled_makeNode h _ _ _ _
  | template =>
    refine h.frame rfl fun x p hp hclean => ⟨hp, hclean, ?_⟩
    rw [newBlockNode_mem_ne (hs.newPtr_fresh _ hp)]
  | flush => exact settled_flushToDB hs h hok
  | connect => exact settled_connected hs h _ _ _
  | connectLost =>
    have hclean : b.bi.dirty = [] := hok.resolve_left (by simp)
    apply settled_finishFlush
    intro x p hp
    exact h x p hp (by simp [hclean])
  | headerTip => exact h.headerMoved (headerMoved_followBestChain b)
  | disconnect => exact settled_disconnected (settled_syncNowBelow hs h hok) _ _ _
  | disconnectFailed => exact settled_syncNowBelow hs h hok
  | setStatus | unsetStatus => exact settled_mark h _ _
  | commit => exact h.frame (drainedRows_commit hok) fun x p hp hclean => ⟨hp, hclean, rfl⟩
  | lookup => exact h.warmed hs (warmed_materializeColdNode b _)
  | repair => exact h.warmed hs (warmed_repairFrom _ _ b)
  | checkpoint => exact h.warmed hs (warmed_checkpoint checkpoints b)
  | rebuildHeader | rollback | rollbackFailed => exact h.frame rfl fun x p hp hclean => ⟨hp, hclean, rfl⟩
  | remove hp =>
    rename_i hash p
    obtain ⟨hmem, -, -⟩ := removeNode_frame b.bi hash
    intro x q hq hclean
    obtain ⟨hx, hlook⟩ := lookup_of_removeNode hq
    change q ∉ (b.bi.removeNode hash).dirty at hclean
    have hqp : q ≠ p := by
      rintro rfl
      exact hx (hs.lookup_inj hlook hp)
    rw [mem_dirty_removeNode hp, not_and, not_not] at hclean
    obtain ⟨row, hrow, hstatus⟩ := h x q hlook fun hd => hqp (hclean hd)
    have hkept : b.HasStatus (b.removed hash p).drainedRows q := by
      refine ⟨row, ?_, hstatus⟩
      rw [← hrow]
      apply writeAll_congr
      change b.db.blockIndex.write ⟨((b.bi.mem p).height, hash), none⟩ _ = _
      rw [write_apply, if_neg]
      intro hk
      have hhash : (b.bi.mem q).hash = hash := congrArg Prod.snd hk
      rw [hs.hash hlook] at hhash
      exact hx hhash
    exact hkept.data (congrArg BlockNode.data (congrFun hmem q))

theorem create_settled (params : ChainParams) (header : BlockHeader) (totalTxns : UInt64) (windowSize : Int) :
    (create params header totalTxns windowSize).Settled := by
  intro x p hp _
  obtain ⟨rfl, rfl⟩ := lookupNode_create hp
  exact ⟨⟨header, { dataStored := true, valid := true }⟩, if_pos rfl, rfl⟩

/-- From a sound and settled state, along any steps that lose no status, every node of the index has its status in
its row whenever the queue is drained and no node is dirty. -/
theorem status_rows_agree {as : List ChainStep} (hs : b.bi.IndexSound) (h : b.Settled)
    (hok : Along (step params checkpoints) LosesNoStatus b as) (hrun : run (step params checkpoints) b as = some b')
    (hdrained : b'.queue = []) (hclean : b'.bi.dirty = []) {hash : Hash} {p : Ptr} (hp : b'.bi.lookupNode hash = some p) :
    ∃ row, b'.db.blockIndex ((b'.bi.mem p).height, hash) = some row ∧ row.status = (b'.bi.mem p).status := by
  obtain ⟨hs', h'⟩ : b'.bi.IndexSound ∧ b'.Settled := by
    refine run_invariant (I := fun b => b.bi.IndexSound ∧ b.Settled) ?_ ⟨hs, h⟩ hok hrun
    rintro s a t ⟨hs, h⟩ hok hstep
    have hm := step_move hstep
    exact ⟨indexSound_move hs hm, h.move hs hok hm⟩
  obtain ⟨row, hrow, hstatus⟩ := h' hash p hp (by simp [hclean])
  rw [drainedRows, hdrained, rowKey, hs'.hash hp] at hrow
  exact ⟨row, hrow, hstatus⟩

theorem status_rows_agree_connected : ∃ b' row, run (step nonceParams []) (create nonceParams (headerOn 0 0) 1 10)
      [.block (headerOn 1 1) none, .flush false true, .setStatus 2 { valid := true }, .flush false true,
        .connect 2 plainItem true, .commit 1 true] = some b' ∧
    b'.db.blockIndex ((b'.bi.mem 1).height, 2) = some row ∧ row.status = (b'.bi.mem 1).status := by
  have hsound := (@create_sound nonceParams (headerOn 0 0) rfl (by decide) 1 10).index
  refine exists_run_with rfl fun b' hrun => status_rows_agree hsound (create_settled _ _ 1 10) ?_ hrun ?_ ?_ ?_
  rotate_left
  iterate 3 cases hrun; rfl
  refine ⟨trivial, fun t ht => ?_⟩
  cases ht
  refine ⟨fun _ _ _ _ => nofun, fun t ht => ⟨trivial, fun u hu => ?_⟩⟩
  cases ht
  cases hu
  refine ⟨fun _ _ _ _ => nofun, fun t ht => ⟨.inl rfl, fun u hu => ?_⟩⟩
  cases ht
  cases hu
  exact ⟨.inl ⟨rfl, rfl⟩, fun _ _ => trivial⟩

/-! ## A mark that is lost -/

/-- Two branches of two blocks each. `InvalidateBlock` on the first block of the one branch reorganizes to the other,
whose blocks are all marked valid before the first of them is connected; its item takes the rows of both along.
`InvalidateBlock` on the second of them then writes its mark at once, and the rows in the queue after it. -/
def invalidateTwice : List ChainStep :=
  -- `ProcessBlock`, of two blocks that extend the tip and of two that do not
  [.block (headerOn 1 1) none, .flush false true, .setStatus 2 { valid := true }, .flush false true,
    .connect 2 plainItem true, .headerTip,
    .block (headerOn 2 2) none, .flush false true, .setStatus 3 { valid := true }, .flush false true,
    .connect 3 plainItem true, .headerTip,
    .block (headerOn 1 3) none, .flush false true, .headerTip,
    .block (headerOn 4 4) none, .flush false true, .headerTip,
    .commit 2 true,
    -- `InvalidateBlock` of the first
    .setStatus 2 { validateFailed := true }, .unsetStatus 2 { valid := true },
    .setStatus 3 { invalidAncestor := true }, .unsetStatus 3 { valid := true },
    .flush false true, .disconnect 1 1 0 true, .flush false true, .disconnect 0 1 0 true, .flush false true,
    .setStatus 4 { valid := true }, .setStatus 5 { valid := true },
    .connect 4 plainItem true, .connect 5 plainItem true, .flush false true,
    -- `InvalidateBlock` of the last
    .setStatus 5 { validateFailed := true }, .unsetStatus 5 { valid := true },
    .flush false true, .disconnect 3 1 0 true, .flush false true]

theorem status_row_lost : ∃ b', run (step nonceParams [])
    (create nonceParams (headerOn 0 0) 1 10) invalidateTwice = some b' ∧
    b'.queue = [] ∧ b'.bi.dirty = [] ∧ b'.bi.lookupNode 5 = some 4 ∧ (b'.bi.mem 4).height = 2 ∧
    (b'.bi.mem 4).status = { dataStored := true, validateFailed := true, headerStored := true } ∧
    (b'.db.blockIndex (2, 5)).map NodeRow.status = some { dataStored := true, valid := true, headerStored := true } := by
  have hrun : (run (step nonceParams []) (create nonceParams (headerOn 0 0) 1 10) invalidateTwice).any (fun b =>
      decide (b.queue.isEmpty = true ∧ b.bi.dirty = [] ∧ b.bi.lookupNode 5 = some 4 ∧ (b.bi.mem 4).height = 2 ∧
        (b.bi.mem 4).status = { dataStored := true, validateFailed := true, headerStored := true } ∧
        (b.db.blockIndex (2, 5)).map NodeRow.status = some { dataStored := true, valid := true, headerStored := true })) =
      true := by
    decide +kernel
  obtain ⟨b', hrun, h⟩ := (Option.any_eq_true _ _).1 hrun
  rw [decide_eq_true_eq, List.isEmpty_iff] at h
  exact ⟨b', hrun, h⟩

end IniNode.BlockChain
