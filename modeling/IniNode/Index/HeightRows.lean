import IniNode.Index.BlockChain
import IniNode.Index.Stored
/-!
# The height index and one branch

The height index is shared by everything that writes blocks. A branch is given by the blocks that may have a row at each
height. Writes that keep to them keep the rows of the branch, at every height where it leaves no choice (`Grows`); an item
that is written leaves the rows of its block (`Grows.item`).
-/

open IniNode.Lib List Option

namespace IniNode

/-- The height index names blocks only that may have the row. -/
def Names (may : Int → Hash → Prop) (db : Db) : Prop := ∀ {h x}, db.heightIndex h = some x → may h x

/-- The rows that a cold read of a block goes through. -/
structure HasRows (db : Db) (h : Int) (x : Hash) : Prop where
  height : db.heightIndex h = some x
  hash : (db.hashIndex x).isSome
  row : (db.blockIndex (h, x)).isSome

/-- A row that claims a height for its block only where it may. -/
def RowNames (may : Int → Hash → Prop) (r : NodeRowSnapshot) : Prop := r.heightIndex = true → may r.height r.hash

structure ItemNames (may : Int → Hash → Prop) (item : WriteItem) : Prop where
  rows : ∀ r ∈ item.nodeRows, RowNames may r
  block : may item.height item.blockHash

/-- The block is the only one that may have the row at the height. -/
structure Only (may : Int → Hash → Prop) (h : Int) (x : Hash) : Prop where
  self : may h x
  unique : ∀ {y}, may h y → y = x

/-- The writes from the one database to the other keep to the rows there may be. -/
structure Grows (may : Int → Hash → Prop) (db db' : Db) : Prop where
  names : Names may db → Names may db'
  height : ∀ {h x}, Only may h x → db.heightIndex h = some x → db'.heightIndex h = some x
  hash : ∀ {x}, (db.hashIndex x).isSome → (db'.hashIndex x).isSome
  row : ∀ {h x}, may h x → (db.blockIndex (h, x)).isSome → (db'.blockIndex (h, x)).isSome

/-- The block of the item has its row, or gets it with the item. -/
def RowAtHand (db : Db) (item : WriteItem) : Prop :=
  (db.blockIndex (item.height, item.blockHash)).isSome ∨ ∃ r ∈ item.nodeRows, r.height = item.height ∧
    r.hash = item.blockHash

theorem ItemNames.mono {may may' : Int → Hash → Prop} {item : WriteItem} (h : ItemNames may item)
    (hle : ∀ k x, may k x → may' k x) : ItemNames may' item :=
  ⟨fun r hr hflag => hle _ _ (h.rows r hr hflag), hle _ _ h.block⟩

namespace Grows

variable {may : Int → Hash → Prop} {db db' db'' : Db} {r : NodeRowSnapshot} {rows : List NodeRowSnapshot} {x : Hash}

theorem of_eq (hheight : db'.heightIndex = db.heightIndex) (hhash : db'.hashIndex = db.hashIndex)
    (hrow : db'.blockIndex = db.blockIndex) : Grows may db db' where
  names := fun h _ _ hx => h (by rwa [hheight] at hx)
  height := fun _ hx => by rwa [hheight]
  hash := fun hx => by rwa [hhash]
  row := fun _ hk => by rwa [hrow]

theorem refl (db : Db) : Grows may db db := of_eq rfl rfl rfl

theorem trans (h : Grows may db db') (h' : Grows may db' db'') : Grows may db db'' where
  names := fun hn => h'.names (h.names hn)
  height := fun hb hx => h'.height hb (h.height hb hx)
  hash := fun hx => h'.hash (h.hash hx)
  row := fun hb hk => h'.row hb (h.row hb hk)

theorem hasRows (h : Grows may db db') {k : Int} (hb : Only may k x) (hr : HasRows db k x) : HasRows db' k x :=
  ⟨h.height hb hr.height, h.hash hr.hash, h.row hb.self hr.row⟩

theorem putHeightIndex {k : Int} (hb : may k x) : Grows may db (db.putHeightIndex k x) where
  names := by
    intro hn j y hy
    obtain ⟨rfl, ⟨⟩⟩ | ⟨-, hy⟩ := Store.of_write hy
    · exact hb
    · exact hn hy
  height := by
    intro j y hy hrow
    change db.heightIndex.write ⟨k, some x⟩ j = some y
    rw [Store.write_apply]
    split
    next hj =>
      rw [hj] at hy
      exact congrArg some (hy.unique hb)
    next => exact hrow
  hash := id
  row := fun _ h => h

theorem putHashIndex (k : Int) (x : Hash) : Grows may db (db.putHashIndex x k) where
  names := id
  height := fun _ h => h
  row := fun _ h => h
  hash := by
    intro y hy
    change (db.hashIndex.write ⟨x, some k⟩ y).isSome
    rw [Store.write_apply]
    split
    · rfl
    · exact hy

theorem storeBlockNode (x : Hash) (k : Int) (row : NodeRow) : Grows may db (db.storeBlockNode x k row) where
  names := id
  height := fun _ h => h
  hash := id
  row := by
    intro h y _ hy
    change (db.blockIndex.write ⟨(k, x), some row⟩ (h, y)).isSome
    rw [Store.write_apply]
    split
    · rfl
    · exact hy

theorem writeNodeRowSnapshot (hr : RowNames may r) : Grows may db (writeNodeRowSnapshot db r) := by
  have h1 : Grows may db (db.storeBlockNode r.hash r.height r.row) := storeBlockNode _ _ _
  have h2 : ∀ db : Db, Grows may db (if r.hashIndex then db.putHashIndex r.hash r.height else db) := by
    intro db
    split
    · exact putHashIndex _ _
    · exact refl db
  have h3 : ∀ db : Db, Grows may db
      (if r.heightIndex then db.putHeightIndexGuarded r.height r.hash r.heightIndexChain else db) := by
    intro db
    split
    next hflag =>
      unfold Db.putHeightIndexGuarded
      split
      · exact refl db
      · exact putHeightIndex (hr hflag)
    next => exact refl db
  exact (h1.trans (h2 _)).trans (h3 _)

theorem foldl_rows (hrows : ∀ r ∈ rows, RowNames may r) (db : Db) :
    Grows may db (rows.foldl IniNode.writeNodeRowSnapshot db) := by
  induction rows generalizing db with
  | nil => exact refl db
  | cons r rows ih =>
    exact (writeNodeRowSnapshot (hrows r mem_cons_self)).trans (ih (fun r' h' => hrows r' (mem_cons_of_mem _ h')) _)

/-- A row with both indexes leaves the rows of its block, where no other block may be at the height. -/
theorem hasRows_writeNodeRowSnapshot (hhash : r.hashIndex = true) (hheight : r.heightIndex = true)
    (hfree : ∀ {x}, db.heightIndex r.height = some x → x = r.hash) :
    HasRows (IniNode.writeNodeRowSnapshot db r) r.height r.hash := by
  simp only [IniNode.writeNodeRowSnapshot, Db.putHeightIndexGuarded, hhash, hheight, if_true]
  split
  next hguard =>
    rw [Bool.and_eq_true] at hguard
    obtain ⟨x, hx⟩ := isSome_iff_exists.1 hguard.2
    refine ⟨?_, by simp [Db.putHashIndex], by simp [Db.putHashIndex, Db.storeBlockNode]⟩
    rw [hx, hfree hx]
  next =>
    refine ⟨by simp [Db.putHeightIndex], by simp [Db.putHashIndex, Db.putHeightIndex], ?_⟩
    simp [Db.putHashIndex, Db.putHeightIndex, Db.storeBlockNode]

theorem hasRows_foldl (hr : r ∈ rows) (hhash : r.hashIndex = true)
    (hheight : r.heightIndex = true)
    (hown : ∀ r' ∈ rows, r'.heightIndex = true → r'.height = r.height → r'.hash = r.hash)
    (hfree : ∀ {x}, db.heightIndex r.height = some x → x = r.hash) :
    HasRows (rows.foldl IniNode.writeNodeRowSnapshot db) r.height r.hash := by
  have hrows : ∀ r' ∈ rows, RowNames (fun h x => h = r.height → x = r.hash) r' := hown
  obtain ⟨before, after, rfl⟩ := append_of_mem hr
  rw [foldl_append]
  have hbefore := foldl_rows (fun r' h => hrows r' (mem_append_left _ h)) db
  have hafter := fun db => foldl_rows (fun r' h => hrows r' (mem_append_right _ (mem_cons_of_mem r h))) db
  refine (hafter _).hasRows ⟨fun _ => rfl, fun hy => hy rfl⟩ (hasRows_writeNodeRowSnapshot hhash hheight fun hx => ?_)
  refine hbefore.names ?_ hx rfl
  rintro h x hx rfl
  exact hfree hx

theorem heightIndex_foldl_off {h : Int} (hx : db.heightIndex h = some x)
    (hoff : ∀ r ∈ rows, r.height = h → r.heightIndexChain = false) :
    (rows.foldl IniNode.writeNodeRowSnapshot db).heightIndex h = some x := by
  induction rows generalizing db with
  | nil => exact hx
  | cons r rows ih =>
    refine ih ?_ fun r' h' => hoff r' (mem_cons_of_mem _ h')
    have hrow : (IniNode.writeNodeRowSnapshot db r).heightIndex = (db.indexRows.putRow r).heights :=
      congrArg IndexRows.heights (indexRows_writeNodeRowSnapshot db r)
    rw [hrow, IndexRows.putRow]
    dsimp only
    split
    next hwrite =>
      rw [Store.write_apply, if_neg]
      · exact hx
      · rintro rfl
        change (r.heightIndex && (r.heightIndexChain || (db.heightIndex r.height).isNone)) = true at hwrite
        rw [hoff r mem_cons_self rfl, hx] at hwrite
        simp at hwrite
    next => exact hx

theorem row_of_mem (hr : r ∈ rows) (db : Db) :
    ((rows.foldl IniNode.writeNodeRowSnapshot db).blockIndex (r.height, r.hash)).isSome := by
  induction rows generalizing db with
  | nil => cases hr
  | cons r' rows ih =>
    rcases mem_cons.1 hr with rfl | hr
    · -- the rows after it keep the row, whatever they may name
      refine (@foldl_rows (fun _ _ => True) rows (fun _ _ _ => trivial) _).row trivial ?_
      rw [(writeNodeRowSnapshot_blockIndex db r).1, Store.write_apply, if_pos rfl]
      rfl
    · exact ih hr _

theorem flushToDB (hrows : ∀ r ∈ rows, RowNames may r) (db : Db)
    (bestHeader : Option (Hash × Int)) : Grows may db (AsyncChain.flushToDB db rows bestHeader) := by
  have hfold := foldl_rows hrows db
  cases bestHeader with
  | none => exact hfold
  | some tip => exact hfold.trans (of_eq rfl rfl rfl)

theorem item {item : WriteItem} (hi : ItemNames may item) (hw : writeItem db item = some db') :
    Grows may db db' ∧ (RowAtHand db item → HasRows db' item.height item.blockHash) := by
  have hfold := foldl_rows hi.rows db
  have hput := (hfold.trans (putHashIndex item.height item.blockHash)).trans (putHeightIndex hi.block)
  obtain ⟨disk, -, rfl⟩ := writeItem_eq hw
  refine ⟨hput.trans (of_eq rfl rfl rfl), fun hown => ⟨by simp, by simp, ?_⟩⟩
  rcases hown with hrow | ⟨r, hr, hh, hx⟩
  · exact hfold.row hi.block hrow
  · rw [← hh, ← hx]
    exact row_of_mem hr db

theorem flushBatch {items : List WriteItem} (hi : ∀ item ∈ items, ItemNames may item)
    (hw : flushBatch db items = some db') : Grows may db db' ∧ ∀ item ∈ items, Only may item.height item.blockHash →
      RowAtHand db item → HasRows db' item.height item.blockHash := by
  have hitems : ∀ {items : List WriteItem} {db d}, (∀ item ∈ items, ItemNames may item) →
    writeItems db items = some d → Grows may db d ∧ ∀ item ∈ items, Only may item.height item.blockHash →
        RowAtHand db item → HasRows d item.height item.blockHash := by
    intro items
    induction items with
    | nil =>
      rintro db d - ⟨⟩
      exact ⟨refl _, by simp⟩
    | cons first items ih =>
      intro db d hi hw
      obtain ⟨db1, hfirst, hw⟩ := bind_eq_some_iff.1 hw
      have hnames := hi first mem_cons_self
      obtain ⟨hg1, hown1⟩ := item hnames hfirst
      obtain ⟨hg2, hown2⟩ := ih (fun i h' => hi i (mem_cons_of_mem _ h')) hw
      refine ⟨hg1.trans hg2, fun i h' honly hown => ?_⟩
      rcases mem_cons.1 h' with rfl | h'
      · exact hg2.hasRows honly (hown1 hown)
      · exact hown2 i h' honly (hown.imp_left (hg1.row (hi i (mem_cons_of_mem _ h')).block))
  rcases flushBatch_eq hw with ⟨rfl, rfl⟩ | ⟨last, d, -, hd, rfl⟩
  · exact ⟨refl _, by simp⟩
  · obtain ⟨hg, hown⟩ := hitems hi hd
    refine ⟨hg.trans (of_eq rfl rfl rfl), fun i h' honly ho => ?_⟩
    have hrows := hown i h' honly ho
    exact ⟨hrows.height, hrows.hash, hrows.row⟩

end Grows

end IniNode
