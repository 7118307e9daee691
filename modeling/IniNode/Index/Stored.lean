import IniNode.Chain.IndexRows
import IniNode.Index.Node
/-!
# The database of one connected chain

`Written` are the databases that creating the chain state and connecting blocks one after the other leave,
with the rows of the chain from genesis on. `Stored` is what such a database holds: a row at each height,
both indexes for it, and the best state and the best-tip snapshot of the last block.
-/

open IniNode.Lib List Option

namespace IniNode

def totalWork (rows : List NodeRow) : Nat := (rows.map fun r => calcWork r.header.bits).sum

abbrev ChainParams.rowHash (params : ChainParams) (row : NodeRow) : Hash := params.blockHash row.header

/-- The item that `connectBlock` writes for the block of the row on top of the chain. The best header it
stores is a block of the chain. -/
structure ItemOf (params : ChainParams) (chain : List NodeRow) (row : NodeRow) (item : WriteItem) : Prop where
  blockHash : item.blockHash = params.rowHash row
  height : item.height = chain.length
  bestTipHash : item.bestTipHash = params.rowHash row
  tipHeight : item.tipHeight = chain.length
  tipWork : item.tipWork = totalWork (chain ++ [row])
  bestState : item.bestState.hash = params.rowHash row ∧ item.bestState.height = chain.length
  nodeRows : ∃ heightIndex heightIndexChain,
    item.nodeRows = [⟨params.rowHash row, chain.length, row, true, heightIndex, heightIndexChain⟩]
  bestHeader : 0 ≤ item.bestHeaderHeight → ∃ (i : Nat) (r : NodeRow),
    (chain ++ [row])[i]? = some r ∧ item.bestHeaderHash = params.rowHash r ∧ item.bestHeaderHeight = i

/-- The databases of one chain. -/
inductive Written (params : ChainParams) : Db → List NodeRow → Prop
  | create (row : NodeRow) (totalTxns : UInt64) (hg : params.rowHash row = params.genesisHash) :
    Written params
      ((((emptyDb.storeBlockNode params.genesisHash 0 row).putBlockIndex params.genesisHash 0).putBestState
        ⟨params.genesisHash, 0, totalTxns⟩ (calcWork row.header.bits)).putBestHeaderState params.genesisHash 0)
      [row]
  /-- `connectBlock`, on a block whose hash is new. -/
  | connect {db db' : Db} {chain : List NodeRow} {row : NodeRow} {item : WriteItem} (h : Written params db chain)
    (hprev : ∀ last ∈ chain.getLast?, row.header.prevBlock = params.rowHash last)
    (hnew : params.rowHash row ∉ chain.map params.rowHash) (hitem : ItemOf params chain row item)
    (hw : writeItem db item = some db') : Written params db' (chain ++ [row])
  /-- A later flush of a node whose status changed. -/
  | status {db : Db} {chain : List NodeRow} {i : Nat} {row row' : NodeRow} (h : Written params db chain)
    (hi : chain[i]? = some row) (hrow : row'.header = row.header) :
    Written params (db.storeBlockNode (params.rowHash row) i row') (chain.set i row')
  /-- What else is written: the end of a batch, the block itself, and the utxo set. -/
  | other {db : Db} {chain : List NodeRow} (h : Written params db chain) (utxoSet : UtxoBucket)
    (utxoStateConsistency : Option Hash) (writeWatermark : Option Int) (blocks : Store Hash Block) :
    Written params { db with utxoSet, utxoStateConsistency, writeWatermark, blocks } chain

/-- What the database of a chain holds. -/
structure Stored (params : ChainParams) (db : Db) (chain : List NodeRow) : Prop where
  genesis : ∃ row, chain[0]? = some row ∧ params.rowHash row = params.genesisHash
  link : ∀ (i : Nat) (row next : NodeRow), chain[i]? = some row → chain[i + 1]? = some next →
    next.header.prevBlock = params.rowHash row
  distinct : (chain.map params.rowHash).Nodup
  rows : ∀ (h : Int) (hash : Hash) (row : NodeRow), db.blockIndex (h, hash) = some row ↔
    ∃ i : Nat, h = i ∧ chain[i]? = some row ∧ hash = params.rowHash row
  heights : ∀ (i : Nat) (row : NodeRow), chain[i]? = some row →
    db.heightIndex i = some (params.rowHash row) ∧ db.hashIndex (params.rowHash row) = some (i : Int)
  best : ∃ tip totalTxns, chain.getLast? = some tip ∧
    db.bestState = some ⟨params.rowHash tip, chain.length - 1, totalTxns, totalWork chain⟩ ∧
    (db.bestTipSnapshot = some ⟨params.rowHash tip, chain.length - 1, totalWork chain⟩ ∨
      chain.length = 1 ∧ db.bestTipSnapshot = none)
  header : db.bestHeaderState = none ∨ ∃ (i : Nat) (row : NodeRow),
    chain[i]? = some row ∧ db.bestHeaderState = some (params.rowHash row, (i : Int))

variable {params : ChainParams} {db db' : Db} {chain : List NodeRow} {row : NodeRow} {item : WriteItem} {i : Nat}

theorem Stored.index_inj (hs : Stored params db chain) {j : Nat} {row' : NodeRow} (hi : chain[i]? = some row)
    (hj : chain[j]? = some row') (h : params.rowHash row = params.rowHash row') : i = j := by
  have hlt := (List.getElem?_eq_some_iff.1 hi).1
  refine (getElem?_inj (by rwa [length_map]) hs.distinct).1 ?_
  rw [getElem?_map, getElem?_map, hi, hj, map_some, map_some, h]

/-! ## Every written database is of that shape -/

theorem Stored.create (row : NodeRow) (totalTxns : UInt64) (hg : params.rowHash row = params.genesisHash) :
    Stored params
      ((((emptyDb.storeBlockNode params.genesisHash 0 row).putBlockIndex params.genesisHash 0).putBestState
        ⟨params.genesisHash, 0, totalTxns⟩ (calcWork row.header.bits)).putBestHeaderState params.genesisHash 0)
      [row] where
  genesis := ⟨row, rfl, hg⟩
  link i r next _ hnext := by simp at hnext
  distinct := nodup_singleton _
  rows h hash r := by
    constructor
    · intro hr
      obtain ⟨⟨⟩, ⟨⟩⟩ | ⟨-, ⟨⟩⟩ := Store.of_write hr
      exact ⟨0, rfl, rfl, hg.symm⟩
    · rintro ⟨i, rfl, hi, rfl⟩
      match i, hi with
      | 0, hi =>
        cases hi
        exact (Store.write_apply ..).trans (if_pos (by rw [hg]; rfl))
  heights i r hi := by
    match i, hi with
    | 0, hi =>
      cases hi
      rw [hg]
      simp [Db.putBestHeaderState, Db.putBestState, Db.putBlockIndex, Db.putHeightIndex, Db.putHashIndex]
  best := by
    refine ⟨row, totalTxns, rfl, ?_, .inr ⟨rfl, rfl⟩⟩
    rw [hg]
    simp [Db.putBestHeaderState, Db.putBestState, totalWork]
  header := .inr ⟨0, row, rfl, by rw [hg]; rfl⟩

theorem getElem?_concat_eq_some {α : Type} {l : List α} {a r : α} :
    (l ++ [a])[i]? = some r ↔ l[i]? = some r ∨ i = l.length ∧ a = r := by
  rw [getElem?_append]
  split
  next hlt => simp [Nat.ne_of_lt hlt]
  next hge =>
    rw [getElem?_singleton, ite_none_right_eq_some, getElem?_eq_none (Nat.le_of_not_lt hge), Option.some.injEq]
    simp only [reduceCtorEq, false_or]
    exact and_congr_left' (by omega)

theorem Stored.connect (hs : Stored params db chain)
    (hprev : ∀ last ∈ chain.getLast?, row.header.prevBlock = params.rowHash last)
    (hnew : params.rowHash row ∉ chain.map params.rowHash) (hitem : ItemOf params chain row item)
    (hw : writeItem db item = some db') : Stored params db' (chain ++ [row]) := by
  obtain ⟨hi, hc, hrows⟩ := hitem.nodeRows
  obtain ⟨hbsHash, hbsHeight⟩ := hitem.bestState
  obtain ⟨hindex, -, -⟩ := writeItem_rows hw
  obtain ⟨disk, -, hdb'⟩ := writeItem_eq hw
  rw [hrows, hbsHash, hbsHeight, hitem.bestTipHash, hitem.tipHeight, hitem.tipWork] at hdb'
  have hblock := (congrArg Db.blockIndex hdb').trans (writeNodeRowSnapshot_blockIndex ..).1
  have hheader := congrArg Db.bestHeaderState hdb'
  simp only [foldl_cons, foldl_nil, (writeNodeRowSnapshot_blockIndex ..).2] at hheader
  have hlen : ((chain ++ [row]).length : Int) - 1 = chain.length := by simp
  -- the two rows of the block, and every other row as before
  have hsame := IndexRows.SameBut.putItem_own db.indexRows ⟨hitem.blockHash, hitem.height⟩
    (by rw [hrows]; simp)
  have hhash : db'.hashIndex (params.rowHash row) = some (chain.length : Int) := by
    have h := congrArg (fun i => i.hashes (params.rowHash row)) hindex
    simpa [IndexRows.putItem, Db.indexRows, hitem.blockHash, hitem.height] using h
  have hheight : db'.heightIndex chain.length = some (params.rowHash row) := by
    have h := congrArg (fun i => i.heights chain.length) hindex
    simpa [IndexRows.putItem, Db.indexRows, hitem.blockHash, hitem.height] using h
  rw [← hindex] at hsame
  have hne : ∀ (i : Nat) (r : NodeRow), chain[i]? = some r → params.rowHash r ≠ params.rowHash row :=
    fun i r hr h => hnew (List.mem_map.2 ⟨r, mem_of_getElem? hr, h⟩)
  refine ⟨?_, ?_, ?_, ?_, ?_, ?_, ?_⟩
  · obtain ⟨g, hg, hgh⟩ := hs.genesis
    exact ⟨g, getElem?_concat_eq_some.2 (.inl hg), hgh⟩
  · intro i r next hr hnext
    have hlt := (List.getElem?_eq_some_iff.1 hnext).1
    rw [getElem?_append_left (by omega)] at hr
    rcases getElem?_concat_eq_some.1 hnext with hnext | ⟨hlast, rfl⟩
    · exact hs.link i r next hr hnext
    · refine hprev r ?_
      rw [getLast?_eq_getElem?, ← hlast]
      exact hr
  · rw [map_append, map_singleton, ← concat_eq_append]
    exact hs.distinct.concat hnew
  · intro h hash r
    rw [hblock]
    constructor
    · intro hr
      obtain ⟨⟨⟩, ⟨⟩⟩ | ⟨-, hr⟩ := Store.of_write hr
      · exact ⟨chain.length, rfl, getElem?_concat_eq_some.2 (.inr ⟨rfl, rfl⟩), rfl⟩
      · obtain ⟨i, hih, hr, hrh⟩ := (hs.rows h hash r).1 hr
        exact ⟨i, hih, getElem?_concat_eq_some.2 (.inl hr), hrh⟩
    · rintro ⟨i, rfl, hr, rfl⟩
      rw [Store.write_apply]
      rcases getElem?_concat_eq_some.1 hr with hr | ⟨rfl, rfl⟩
      · rw [if_neg fun hk => hne i r hr (Prod.mk.inj hk).2]
        exact (hs.rows _ _ r).2 ⟨i, rfl, hr, rfl⟩
      · rw [if_pos rfl]
  · intro i r hr
    rcases getElem?_concat_eq_some.1 hr with hr | ⟨rfl, rfl⟩
    · have hlt := (List.getElem?_eq_some_iff.1 hr).1
      obtain ⟨h1, h2⟩ := hs.heights i r hr
      exact ⟨(hsame.heights i (by omega)).trans h1, (hsame.hashes _ (hne i r hr)).trans h2⟩
    · exact ⟨hheight, hhash⟩
  · refine ⟨row, item.bestState.totalTxns, by simp, ?_, .inl ?_⟩
    · rw [hlen]; exact congrArg Db.bestState hdb'
    · rw [hlen]; exact congrArg Db.bestTipSnapshot hdb'
  · rw [hheader]
    split
    next hpos =>
      obtain ⟨i, r, hr, hh, hheight⟩ := hitem.bestHeader hpos
      exact .inr ⟨i, r, hr, by rw [hh, hheight]⟩
    next =>
      rcases hs.header with h | ⟨i, r, hr, h⟩
      · exact .inl h
      · exact .inr ⟨i, r, getElem?_concat_eq_some.2 (.inl hr), h⟩

theorem map_header_set {row' : NodeRow} (hi : chain[i]? = some row) (hrow : row'.header = row.header) :
    (chain.set i row').map NodeRow.header = chain.map NodeRow.header := by
  obtain ⟨hlt, rfl⟩ := List.getElem?_eq_some_iff.1 hi
  rw [map_set, hrow, ← getElem_map NodeRow.header (h := by rwa [length_map]), set_getElem_self]

theorem header_of_set {row' r : NodeRow} {j : Nat} (hi : chain[i]? = some row) (hrow : row'.header = row.header)
    (hr : (chain.set i row')[j]? = some r) : ∃ r0, chain[j]? = some r0 ∧ r.header = r0.header := by
  have h := congrArg (·[j]?) (map_header_set hi hrow)
  simp only [getElem?_map, hr] at h
  obtain ⟨r0, hr0, hh⟩ := map_eq_some_iff.1 h.symm
  exact ⟨r0, hr0, hh.symm⟩

theorem Stored.status (hs : Stored params db chain) {row' : NodeRow} (hi : chain[i]? = some row)
    (hrow : row'.header = row.header) :
    Stored params (db.storeBlockNode (params.rowHash row) i row') (chain.set i row') := by
  have hmap := map_header_set hi hrow
  have hhashes : (chain.set i row').map params.rowHash = chain.map params.rowHash := by
    have h := congrArg (List.map params.blockHash) hmap
    rwa [List.map_map, List.map_map] at h
  have hwork : totalWork (chain.set i row') = totalWork chain := by
    have h := congrArg (fun l => (l.map fun h => calcWork h.bits).sum) hmap
    simp only [List.map_map] at h
    exact h
  have hlen : (chain.set i row').length = chain.length := length_set
  have hlt := (List.getElem?_eq_some_iff.1 hi).1
  have hset : (chain.set i row')[i]? = some row' := getElem?_set_self hlt
  -- the old chain is the new one with the row set back
  have hback : ∀ (j : Nat) (r0 : NodeRow), chain[j]? = some r0 →
      ∃ r, (chain.set i row')[j]? = some r ∧ params.rowHash r = params.rowHash r0 := by
    intro j r0 hr0
    obtain ⟨r, hr, hh⟩ :=
      header_of_set hset hrow.symm (by rwa [set_set, ← (List.getElem?_eq_some_iff.1 hi).2, set_getElem_self])
    exact ⟨r, hr, congrArg params.blockHash hh.symm⟩
  refine ⟨?_, ?_, hhashes ▸ hs.distinct, ?_, ?_, ?_, ?_⟩
  · obtain ⟨g, hg, hgh⟩ := hs.genesis
    obtain ⟨r, hr, hh⟩ := hback 0 g hg
    exact ⟨r, hr, hh.trans hgh⟩
  · intro j r next hr hnext
    obtain ⟨r0, hr0, hh⟩ := header_of_set hi hrow hr
    obtain ⟨next0, hnext0, hh'⟩ := header_of_set hi hrow hnext
    have hlink := hs.link j r0 next0 hr0 hnext0
    rw [← hh'] at hlink
    exact hlink.trans (congrArg params.blockHash hh.symm)
  · intro h hash r
    have hown : params.rowHash row' = params.rowHash row := congrArg params.blockHash hrow
    constructor
    · intro hr
      obtain ⟨⟨⟩, ⟨⟩⟩ | ⟨hk, hr⟩ := Store.of_write hr
      · exact ⟨i, rfl, hset, hown.symm⟩
      · obtain ⟨j, rfl, hj, rfl⟩ := (hs.rows h hash r).1 hr
        refine ⟨j, rfl, ?_, rfl⟩
        rw [getElem?_set_ne, hj]
        rintro rfl
        obtain rfl := mem_unique hi hj
        exact hk rfl
    · rintro ⟨j, rfl, hr, rfl⟩
      refine (Store.write_apply ..).trans ?_
      by_cases hj : i = j
      · subst hj
        obtain rfl := mem_unique hset hr
        rw [if_pos (by rw [hown])]
      · rw [getElem?_set_ne hj] at hr
        rw [if_neg fun hk => hj (by have := (Prod.mk.inj hk).1; omega)]
        exact (hs.rows _ _ r).2 ⟨j, rfl, hr, rfl⟩
  · intro j r hr
    obtain ⟨r0, hr0, hh⟩ := header_of_set hi hrow hr
    rw [show params.rowHash r = params.rowHash r0 from congrArg params.blockHash hh]
    exact hs.heights j r0 hr0
  · obtain ⟨tip, totalTxns, htip, hbest, hsnap⟩ := hs.best
    rw [getLast?_eq_getElem?] at htip
    obtain ⟨r, hr, hh⟩ := hback _ tip htip
    refine ⟨r, totalTxns, ?_, ?_, ?_⟩
    · rw [getLast?_eq_getElem?, hlen]; exact hr
    · rw [hh, hlen, hwork]; exact hbest
    · rw [hh, hlen, hwork]; exact hsnap
  · rcases hs.header with h | ⟨j, r0, hr0, h⟩
    · exact .inl h
    · obtain ⟨r, hr, hh⟩ := hback j r0 hr0
      exact .inr ⟨j, r, hr, by rw [hh]; exact h⟩

theorem Written.stored (h : Written params db chain) : Stored params db chain := by
  induction h with
  | create row totalTxns hg => exact Stored.create row totalTxns hg
  | connect _ hprev hnew hitem hw ih => exact ih.connect hprev hnew hitem hw
  | status _ hi hrow ih => exact ih.status hi hrow
  | other _ _ _ _ _ ih => exact ⟨ih.genesis, ih.link, ih.distinct, ih.rows, ih.heights, ih.best, ih.header⟩

end IniNode
