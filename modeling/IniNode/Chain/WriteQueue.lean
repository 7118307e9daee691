import IniNode.Chain.Db
import IniNode.Utxo.Cache
/-!
# Queue items and their transactions

A `WriteItem` is what connecting a block leaves for the asynchronous writer: the block's metadata rows
and its utxo deltas. `flushBatch` writes a batch of items in one transaction and then moves the utxo
consistency marker and the write watermark to the last of them. A transaction that fails changes
nothing; the caller only logs it.
-/

open List Option

namespace IniNode

structure NodeRowSnapshot where
  hash : Hash
  height : Int
  row : NodeRow
  hashIndex : Bool
  heightIndex : Bool
  heightIndexChain : Bool
deriving DecidableEq, Repr

structure WriteItem where
  height : Int
  block : Block
  nodeRows : List NodeRowSnapshot
  bestTipHash : Hash
  tipHeight : Int
  tipWork : Nat
  bestState : BestState
  blockHash : Hash
  stxos : List SpentTxOut
  bestHeaderHash : Hash
  bestHeaderHeight : Int
  utxoDelta : List UtxoDelta
deriving DecidableEq, Repr

def writeQueueCap : Nat := 64

def writeQueueBatchSize : Nat := 32

/-- The filter of a `syncReq`: items up to the height are kept, or all of them when it is negative. -/
def WriteItem.keptBelow (maxHeight : Int) (item : WriteItem) : Bool := decide (maxHeight < 0 ∨ item.height ≤ maxHeight)

variable (db : Db)

def writeNodeRowSnapshot (r : NodeRowSnapshot) : Db :=
  let db := db.storeBlockNode r.hash r.height r.row
  let db := if r.hashIndex then db.putHashIndex r.hash r.height else db
  if r.heightIndex then db.putHeightIndexGuarded r.height r.hash r.heightIndexChain else db

/-- `writeItemRows`; none when an optional index refuses the block. -/
def writeItemRows (item : WriteItem) : Option Db :=
  let db := item.nodeRows.foldl writeNodeRowSnapshot db
  let db := if 0 ≤ item.bestHeaderHeight then db.putBestHeaderState item.bestHeaderHash item.bestHeaderHeight else db
  let db := db.putBestTipSnapshot item.bestTipHash item.tipHeight item.tipWork
  let db := db.putBestState item.bestState item.tipWork
  let db := db.putBlockIndex item.blockHash item.height
  let db := db.putSpendJournalEntry item.blockHash item.stxos
  db.indexConnectBlock item.block

/-- `writeItemDeltas`; none when a delta would store a spent entry. -/
def writeItemDeltas (disk : UtxoBucket) : List UtxoDelta → Option UtxoBucket
  | [] => some disk
  | d :: ds =>
    match d.tombstone, d.entry with
    | false, some e => if e.isSpent then none else writeItemDeltas (dbPutUtxoEntry disk d.op e) ds
    | _, _ => writeItemDeltas (dbDeleteUtxoEntry disk d.op) ds

def writeItem (item : WriteItem) : Option Db :=
  (writeItemRows db item).bind fun db =>
    (writeItemDeltas db.utxoSet item.utxoDelta).map fun disk => { db with utxoSet := disk }

def writeItems : Db → List WriteItem → Option Db
  | db, [] => some db
  | db, item :: items => (writeItem db item).bind fun db => writeItems db items

/-- `flushBatch`: none when the transaction fails. -/
def flushBatch (items : List WriteItem) : Option Db :=
  match items.getLast? with
  | none => some db
  | some last =>
    (writeItems db items).map fun db =>
      (db.putUtxoStateConsistency last.bestState.hash).putWriteWatermark last.height

/-! ## What a transaction leaves -/

theorem writeItemDeltas_eq {ds : List UtxoDelta} (h : ∀ d ∈ ds, ∀ e, d.entry = some e → e.isSpent = false)
    (disk : UtxoBucket) : writeItemDeltas disk ds = some (disk.writeAll (ds.map UtxoDelta.toWrite)) := by
  induction ds generalizing disk with
  | nil => rfl
  | cons d ds ih =>
    have ih := fun disk => ih (fun d' hd' => h d' (mem_cons_of_mem _ hd')) disk
    obtain ⟨op, tombstone, entry⟩ := d
    cases tombstone <;> cases entry <;>
      simp_all [writeItemDeltas, UtxoDelta.toWrite, dbDeleteUtxoEntry, dbPutUtxoEntry]

theorem writeItemDeltas_some {ds : List UtxoDelta} {disk disk' : UtxoBucket}
    (h : writeItemDeltas disk ds = some disk') : disk' = disk.writeAll (ds.map UtxoDelta.toWrite) := by
  induction ds generalizing disk with
  | nil => exact (Option.some.inj h).symm
  | cons d ds ih =>
    obtain ⟨op, tombstone, entry⟩ := d
    cases tombstone <;> cases entry
    case false.some e => exact ih (ite_none_left_eq_some.1 h).2
    all_goals exact ih h

theorem writeItems_append (items items' : List WriteItem) :
    writeItems db (items ++ items') = (writeItems db items).bind fun db => writeItems db items' := by
  induction items generalizing db with
  | nil => rfl
  | cons item items ih =>
    simp only [cons_append, writeItems]
    cases writeItem db item with
    | none => rfl
    | some db' => exact ih db'

/-! ## Batches in a row -/

/-- The database with another marker and watermark. -/
def Db.withMarks (marker : Option Hash) (watermark : Option Int) : Db :=
  { db with utxoStateConsistency := marker, writeWatermark := watermark }

section Marks
variable (marker : Option Hash) (watermark : Option Int)

theorem writeNodeRowSnapshot_withMarks (db : Db) (r : NodeRowSnapshot) :
    writeNodeRowSnapshot (db.withMarks marker watermark) r = (writeNodeRowSnapshot db r).withMarks marker watermark := by
  obtain ⟨hash, height, row, hashIndex, heightIndex, chain⟩ := r
  cases hrow : db.heightIndex height <;> cases hashIndex <;> cases heightIndex <;> cases chain <;>
    simp [writeNodeRowSnapshot, Db.withMarks, Db.storeBlockNode, Db.putHashIndex, Db.putHeightIndexGuarded,
      Db.putHeightIndex, hrow]

theorem foldl_withMarks (rows : List NodeRowSnapshot) (db : Db) :
    rows.foldl writeNodeRowSnapshot (db.withMarks marker watermark) =
      (rows.foldl writeNodeRowSnapshot db).withMarks marker watermark := by
  induction rows generalizing db with
  | nil => rfl
  | cons r rows ih => rw [foldl_cons, writeNodeRowSnapshot_withMarks, ih]; rfl

theorem writeItem_withMarks (db : Db) (item : WriteItem) :
    writeItem (db.withMarks marker watermark) item = (writeItem db item).map (·.withMarks marker watermark) := by
  have hrows : writeItemRows (db.withMarks marker watermark) item =
      (writeItemRows db item).map (·.withMarks marker watermark) := by
    unfold writeItemRows
    rw [foldl_withMarks]
    generalize item.nodeRows.foldl writeNodeRowSnapshot db = d
    by_cases hh : 0 ≤ item.bestHeaderHeight
    · by_cases ht : d.indexTips.all (· = item.block.prevBlock) = true <;>
        simp [hh, Db.indexConnectBlock, Db.withMarks, Db.putSpendJournalEntry, Db.putBlockIndex, Db.putHashIndex,
          Db.putHeightIndex, Db.putBestState, Db.putBestTipSnapshot, Db.putBestHeaderState]
    · by_cases ht : d.indexTips.all (· = item.block.prevBlock) = true <;>
        simp [hh, Db.indexConnectBlock, Db.withMarks, Db.putSpendJournalEntry, Db.putBlockIndex, Db.putHashIndex,
          Db.putHeightIndex, Db.putBestState, Db.putBestTipSnapshot]
  rw [writeItem, writeItem, hrows]
  cases writeItemRows db item with
  | none => rfl
  | some d =>
    simp only [bind_some, Option.map_map]
    rfl

theorem writeItems_withMarks (db : Db) (items : List WriteItem) :
    writeItems (db.withMarks marker watermark) items = (writeItems db items).map (·.withMarks marker watermark) := by
  induction items generalizing db with
  | nil => rfl
  | cons item items ih =>
    rw [writeItems, writeItems, writeItem_withMarks]
    cases writeItem db item with
    | none => rfl
    | some d => exact ih d

end Marks

theorem flushBatch_eq {db db' : Db} {items : List WriteItem} (h : flushBatch db items = some db') :
    (items = [] ∧ db' = db) ∨ ∃ last d, items.getLast? = some last ∧ writeItems db items = some d ∧
      db' = d.withMarks (some last.bestState.hash) (some last.height) := by
  unfold flushBatch at h
  split at h
  next hn => exact .inl ⟨getLast?_eq_none_iff.1 hn, (Option.some.inj h).symm⟩
  next last hlast =>
    obtain ⟨d, hd, rfl⟩ := map_eq_some_iff.1 h
    exact .inr ⟨last, d, hlast, hd, rfl⟩

theorem flushBatch_append {db db' db'' : Db} {items items' : List WriteItem} (h : flushBatch db items = some db')
    (h' : flushBatch db' items' = some db'') : flushBatch db (items ++ items') = some db'' := by
  rcases flushBatch_eq h with ⟨rfl, rfl⟩ | ⟨last, d, hlast, hd, rfl⟩
  · exact h'
  rcases flushBatch_eq h' with ⟨rfl, rfl⟩ | ⟨last', d', hlast', hd', rfl⟩
  · rwa [append_nil]
  · rw [writeItems_withMarks] at hd'
    obtain ⟨e, he, rfl⟩ := map_eq_some_iff.1 hd'
    rw [flushBatch, getLast?_append, hlast']
    simp only [writeItems_append, hd, bind_some, he]
    rfl

/-- What an item writes. -/
theorem writeItem_eq {db db' : Db} {item : WriteItem} (h : writeItem db item = some db') :
    let d := item.nodeRows.foldl writeNodeRowSnapshot db
    ∃ disk, writeItemDeltas d.utxoSet item.utxoDelta = some disk ∧ db' = { d with
      hashIndex := d.hashIndex.write ⟨item.blockHash, some item.height⟩
      heightIndex := d.heightIndex.write ⟨item.height, some item.blockHash⟩
      bestHeaderState := if 0 ≤ item.bestHeaderHeight then some (item.bestHeaderHash, item.bestHeaderHeight)
        else d.bestHeaderState
      bestTipSnapshot := some ⟨item.bestTipHash, item.tipHeight, item.tipWork⟩
      bestState := some ⟨item.bestState.hash, item.bestState.height, item.bestState.totalTxns, item.tipWork⟩
      spendJournal := d.spendJournal.write ⟨item.blockHash, some item.stxos⟩
      utxoSet := disk
      indexTips := d.indexTips.map fun _ => item.block.hash } := by
  obtain ⟨db1, hrows, h⟩ := bind_eq_some_iff.1 h
  obtain ⟨disk, hdisk, rfl⟩ := map_eq_some_iff.1 h
  obtain ⟨-, ⟨⟩⟩ := ite_none_right_eq_some.1 hrows
  split_ifs at hdisk ⊢ <;> exact ⟨disk, hdisk, rfl⟩

theorem flushBatch_last {db db' : Db} {items : List WriteItem} {last : WriteItem} (h : flushBatch db items = some db')
    (hlast : items.getLast? = some last) : db'.writeWatermark = some last.height ∧
      db'.utxoStateConsistency = some last.bestState.hash ∧
      db'.bestState = some ⟨last.bestState.hash, last.bestState.height, last.bestState.totalTxns, last.tipWork⟩ := by
  rcases flushBatch_eq h with ⟨rfl, -⟩ | ⟨last', d, hlast', hd, rfl⟩
  · cases hlast
  cases hlast.symm.trans hlast'
  refine ⟨rfl, rfl, ?_⟩
  -- the last item of the batch writes its best state, and nothing after it does
  obtain ⟨init, rfl⟩ := getLast?_eq_some_iff.1 hlast
  rw [writeItems_append] at hd
  obtain ⟨d1, -, hd⟩ := bind_eq_some_iff.1 hd
  obtain ⟨d2, hitem, hd⟩ := bind_eq_some_iff.1 hd
  cases hd
  obtain ⟨disk, -, rfl⟩ := writeItem_eq hitem
  rfl

end IniNode
