import IniNode.Chain.Pipeline
/-!
# The hash and height rows

What the queue's transactions and `flushToDB` do to the two indexes that map hashes to heights and back. The
rows of one block are set apart: everything written for that block alone leaves all other rows as they are
(`IndexRows.SameBut`), and every other write treats two databases alike that differ in those rows only.
-/

open IniNode.Lib List Option

namespace IniNode

structure IndexRows where
  hashes : Store Hash Int
  heights : Store Int Hash

def Db.indexRows (db : Db) : IndexRows := ⟨db.hashIndex, db.heightIndex⟩

namespace IndexRows

/-- `writeNodeRowSnapshot` on the rows. -/
def putRow (i : IndexRows) (r : NodeRowSnapshot) : IndexRows where
  hashes := if r.hashIndex then i.hashes.write ⟨r.hash, some r.height⟩ else i.hashes
  heights :=
    if r.heightIndex && (r.heightIndexChain || (i.heights r.height).isNone) then i.heights.write ⟨r.height, some r.hash⟩
    else i.heights

/-- `writeItem` on the rows. -/
def putItem (i : IndexRows) (item : WriteItem) : IndexRows :=
  let i := item.nodeRows.foldl putRow i
  ⟨i.hashes.write ⟨item.blockHash, some item.height⟩, i.heights.write ⟨item.height, some item.blockHash⟩⟩

/-- The rows agree but for those of one block. -/
structure SameBut (hash : Hash) (height : Int) (i j : IndexRows) : Prop where
  hashes : ∀ k, k ≠ hash → j.hashes k = i.hashes k
  heights : ∀ k, k ≠ height → j.heights k = i.heights k

section SameBut
variable {hash : Hash} {height : Int} {i j k : IndexRows}

theorem SameBut.refl (i : IndexRows) : SameBut hash height i i := ⟨fun _ _ => rfl, fun _ _ => rfl⟩

theorem SameBut.trans (h : SameBut hash height i j) (h' : SameBut hash height j k) : SameBut hash height i k :=
  ⟨fun x hx => (h'.hashes x hx).trans (h.hashes x hx), fun x hx => (h'.heights x hx).trans (h.heights x hx)⟩

theorem SameBut.putRow_own (i : IndexRows) {r : NodeRowSnapshot} (hr : r.hash = hash ∧ r.height = height) :
    SameBut hash height i (i.putRow r) := by
  obtain ⟨rfl, rfl⟩ := hr
  refine ⟨fun x hx => ?_, fun x hx => ?_⟩ <;> unfold putRow <;> dsimp only <;> split
  · rw [Store.write_apply, if_neg hx]
  · rfl
  · rw [Store.write_apply, if_neg hx]
  · rfl

theorem SameBut.foldl_own {rows : List NodeRowSnapshot} (hrows : ∀ r ∈ rows, r.hash = hash ∧ r.height = height)
    (i : IndexRows) : SameBut hash height i (rows.foldl putRow i) := by
  induction rows generalizing i with
  | nil => exact .refl i
  | cons r rows ih =>
    exact (SameBut.putRow_own i (hrows r mem_cons_self)).trans (ih (fun r' h => hrows r' (mem_cons_of_mem _ h)) _)

theorem SameBut.putItem_own (i : IndexRows) {item : WriteItem} (hi : item.blockHash = hash ∧ item.height = height)
    (hrows : ∀ r ∈ item.nodeRows, r.hash = hash ∧ r.height = height) : SameBut hash height i (i.putItem item) := by
  obtain ⟨h1, h2⟩ := SameBut.foldl_own hrows i
  obtain ⟨rfl, rfl⟩ := hi
  refine ⟨fun x hx => ?_, fun x hx => ?_⟩
  · rw [← h1 x hx]
    exact (Store.write_apply ..).trans (if_neg hx)
  · rw [← h2 x hx]
    exact (Store.write_apply ..).trans (if_neg hx)

section

variable (h : SameBut hash height i j)

include h

theorem SameBut.putRow (r : NodeRowSnapshot) :
    SameBut hash height (i.putRow r) (j.putRow r) := by
  refine ⟨fun x hx => ?_, fun x hx => ?_⟩
  · unfold IndexRows.putRow
    dsimp only
    split
    · rw [Store.write_apply, Store.write_apply, h.hashes x hx]
    · exact h.hashes x hx
  · unfold IndexRows.putRow
    dsimp only
    by_cases hxr : x = r.height
    · -- the guard reads the row that is compared
      subst hxr
      rw [h.heights _ hx]
      split
      · rw [Store.write_apply, Store.write_apply, if_pos rfl, if_pos rfl]
      · exact h.heights _ hx
    · have hwrite : ∀ (c : Prop) [Decidable c] (s : Store Int Hash),
          (if c then s.write ⟨r.height, some r.hash⟩ else s) x = s x := by
        intro c _ s
        split
        · rw [Store.write_apply, if_neg hxr]
        · rfl
      rw [hwrite, hwrite, h.heights x hx]

theorem SameBut.foldl_putRow (rows : List NodeRowSnapshot) :
    SameBut hash height (rows.foldl IndexRows.putRow i) (rows.foldl IndexRows.putRow j) := by
  induction rows generalizing i j with
  | nil => exact h
  | cons r rows ih => exact ih (h.putRow r)

theorem SameBut.putItem (item : WriteItem) :
    SameBut hash height (i.putItem item) (j.putItem item) := by
  have hrows := h.foldl_putRow item.nodeRows
  refine ⟨fun x hx => ?_, fun x hx => ?_⟩ <;> unfold IndexRows.putItem
  · simp [hrows.hashes x hx]
  · simp [hrows.heights x hx]

theorem SameBut.foldl_putItem (items : List WriteItem) :
    SameBut hash height (items.foldl IndexRows.putItem i) (items.foldl IndexRows.putItem j) := by
  induction items generalizing i j with
  | nil => exact h
  | cons item items ih => exact ih (h.putItem item)

/-- Rows that agree and lack the block's own are equal. -/
theorem SameBut.eq (hi : i.hashes hash = none ∧ i.heights height = none)
    (hj : j.hashes hash = none ∧ j.heights height = none) : j = i := by
  obtain ⟨ih, ik⟩ := i
  obtain ⟨jh, jk⟩ := j
  congr 1 <;> funext x
  · by_cases hx : x = hash
    · rw [hx]; exact hj.1.trans hi.1.symm
    · exact h.hashes x hx
  · by_cases hx : x = height
    · rw [hx]; exact hj.2.trans hi.2.symm
    · exact h.heights x hx

end

end SameBut

end IndexRows

open IndexRows

theorem indexRows_writeNodeRowSnapshot (db : Db) (r : NodeRowSnapshot) :
    (writeNodeRowSnapshot db r).indexRows = db.indexRows.putRow r := by
  obtain ⟨hash, height, row, hashIndex, heightIndex, chain⟩ := r
  cases hrow : db.heightIndex height <;> cases hashIndex <;> cases heightIndex <;> cases chain <;>
    simp [writeNodeRowSnapshot, Db.indexRows, putRow, Db.storeBlockNode, Db.putHashIndex, Db.putHeightIndexGuarded,
      Db.putHeightIndex, hrow]

theorem indexRows_foldl (rows : List NodeRowSnapshot) (db : Db) :
    (rows.foldl writeNodeRowSnapshot db).indexRows = rows.foldl putRow db.indexRows := by
  induction rows generalizing db with
  | nil => rfl
  | cons r rows ih => rw [foldl_cons, ih, indexRows_writeNodeRowSnapshot]; rfl

theorem indexRows_flushToDB (db : Db) (rows : List NodeRowSnapshot) (bestHeader : Option (Hash × Int)) :
    (AsyncChain.flushToDB db rows bestHeader).indexRows = rows.foldl putRow db.indexRows := by
  rw [← indexRows_foldl]
  cases bestHeader <;> rfl

theorem writeNodeRowSnapshot_blockIndex (db : Db) (r : NodeRowSnapshot) :
    (writeNodeRowSnapshot db r).blockIndex = db.blockIndex.write ⟨(r.height, r.hash), some r.row⟩ ∧
      (writeNodeRowSnapshot db r).bestHeaderState = db.bestHeaderState := by
  unfold writeNodeRowSnapshot Db.putHeightIndexGuarded
  dsimp only
  split_ifs <;> exact ⟨rfl, rfl⟩

/-- The row of a node, as a write to the block index bucket. -/
def rowWrite (r : NodeRowSnapshot) : Write (Int × Hash) NodeRow := ⟨(r.height, r.hash), some r.row⟩

theorem blockIndex_foldl (rows : List NodeRowSnapshot) (db : Db) :
    (rows.foldl writeNodeRowSnapshot db).blockIndex = db.blockIndex.writeAll (rows.map rowWrite) := by
  induction rows generalizing db with
  | nil => rfl
  | cons r rows ih =>
    rw [foldl_cons, ih, (writeNodeRowSnapshot_blockIndex db r).1]
    rfl

variable {db db' : Db}

/-- The item has been written over the database: the rows of its nodes, its index rows, its spend journal
and its utxo deltas. -/
structure WriteItem.OnDisk (item : WriteItem) (db db' : Db) : Prop where
  blockIndex : db'.blockIndex = db.blockIndex.writeAll (item.nodeRows.map rowWrite)
  hashIndex : db'.hashIndex item.blockHash = some item.height
  heightIndex : db'.heightIndex item.height = some item.blockHash
  spendJournal : db'.spendJournal item.blockHash = some item.stxos
  utxoSet : db'.utxoSet = db.utxoSet.writeAll (item.utxoDelta.map UtxoDelta.toWrite)

theorem writeItem_onDisk {item : WriteItem} (h : writeItem db item = some db') : item.OnDisk db db' := by
  obtain ⟨disk, hdisk, rfl⟩ := writeItem_eq h
  rw [(sameUtxoState_foldl item.nodeRows db).utxoSet] at hdisk
  exact ⟨blockIndex_foldl _ _, by simp, by simp, by simp, writeItemDeltas_some hdisk⟩

/-- What a written item leaves besides the utxo rows: its index rows and its journal entry, and no optional
index where there was none. -/
theorem writeItem_rows {item : WriteItem} (h : writeItem db item = some db') :
    db'.indexRows = db.indexRows.putItem item ∧
      db'.spendJournal = db.spendJournal.write ⟨item.blockHash, some item.stxos⟩ ∧
      (db.indexTips = [] → db'.indexTips = []) := by
  obtain ⟨disk, -, rfl⟩ := writeItem_eq h
  obtain ⟨-, -, hjournal, htips, -⟩ := sameUtxoState_foldl item.nodeRows db
  refine ⟨?_, ?_, fun hnil => ?_⟩
  · rw [putItem, ← indexRows_foldl]
    rfl
  · rw [← hjournal]
  · rw [← htips] at hnil
    exact congrArg (List.map fun _ => item.block.hash) hnil

variable {items : List WriteItem}

theorem writeItems_rows (h : writeItems db items = some db') : db'.indexRows = items.foldl putItem db.indexRows ∧
      (∀ item, items.getLast? = some item → db'.spendJournal item.blockHash = some item.stxos) ∧
      (db.indexTips = [] → db'.indexTips = []) := by
  induction items generalizing db with
  | nil =>
    cases h
    exact ⟨rfl, by simp, id⟩
  | cons item items ih =>
    obtain ⟨db1, hitem, h⟩ := bind_eq_some_iff.1 h
    obtain ⟨hindex1, hjournal1, htips1⟩ := writeItem_rows hitem
    obtain ⟨hindex, hjournal, htips⟩ := ih h
    refine ⟨by rw [hindex, hindex1]; rfl, fun last hlast => ?_, fun hnil => htips (htips1 hnil)⟩
    cases items with
    | nil =>
      cases h
      obtain rfl : item = last := by simpa using hlast
      rw [hjournal1, Store.write_apply, if_pos rfl]
    | cons item' items => exact hjournal last (by simpa using hlast)

theorem flushBatch_rows (h : flushBatch db items = some db') : db'.indexRows = items.foldl putItem db.indexRows ∧
      (∀ item, items.getLast? = some item → db'.spendJournal item.blockHash = some item.stxos) ∧
      (db.indexTips = [] → db'.indexTips = []) := by
  unfold flushBatch at h
  split at h
  next hnil =>
    cases h
    rw [getLast?_eq_none_iff.1 hnil]
    exact ⟨rfl, by simp, id⟩
  next last hlast =>
    obtain ⟨db1, hitems, rfl⟩ := map_eq_some_iff.1 h
    obtain ⟨hindex, hjournal, htips⟩ := writeItems_rows hitems
    exact ⟨hindex, hjournal, htips⟩

end IniNode
