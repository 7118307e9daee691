import IniNode.Utxo.Flush
/-!
# When a full flush keeps the utxo set

A full flush is meant to move the cache to disk without changing what a lookup resolves to. It does
so exactly when every unspent entry it keeps resident lies in the first map of the slice, and every
unspent entry it drops without writing agrees with its row: `full_flush_keeps_iff`. A resident entry of
a later map comes back as nil, which hides the output at once and makes the next full flush delete
its row.
-/

namespace IniNode

open UtxoCache
variable (sz : SizeHelper) {s : UtxoCache} {disk : UtxoBucket}

/-- The outputs a lookup of one outpoint through `fetchEntries` resolves to. -/
def fetchUnspent (sz : SizeHelper) (s : UtxoCache) (db : Db) (op : OutPoint) : List (Option Coin) :=
  (s.fetchEntries sz db.utxoSet [op]).1.map unspent

/-- After a full flush, and after a second one right behind it, every outpoint resolves as before. -/
def FullFlushKeeps (sz : SizeHelper) (s : UtxoCache) (db : Db) (best best' : Hash) : Prop :=
  let r := s.writeCache sz db best true
  let r' := r.1.writeCache sz r.2 best' true
  (∀ op, fetchUnspent sz r.1 r.2 op = fetchUnspent sz s db op) ∧
    ∀ op, fetchUnspent sz r'.1 r'.2 op = fetchUnspent sz s db op

/-- Every unspent entry at or above the floor is in the first map, and every unspent entry below it
that was not modified agrees with its row. -/
structure FlushSafe (s : UtxoCache) (disk : UtxoBucket) : Prop where
  hot : ∀ op e, s.get op = some (some e) → e.isSpent = false → s.hotFloor ≤ e.blockHeight →
    op ∈ s.cachedEntries.first
  cold : ∀ op e, s.get op = some (some e) → e.isSpent = false → e.isModified = false →
    e.blockHeight < s.hotFloor → disk op = some e.coin

theorem fetchUnspent_eq (db : Db) (op : OutPoint) : fetchUnspent sz s db op = [s.resolve db.utxoSet op] := rfl

theorem resolve_writeFull (op : OutPoint) : (s.writeFull sz disk).1.resolve (s.writeFull sz disk).2 op =
      match s.get op with
      | none => disk op
      | some x =>
        if isHot s.hotFloor x = true then if op ∈ s.cachedEntries.first then unspent x else none
        else rowAfter (disk op) x := by
  obtain ⟨hrow, hget, -⟩ := writeFull_spec sz s disk
  unfold resolve lookup
  rw [hget]
  cases hx : s.get op with
  | none => simp [hrow, rowFlushed, hx]
  | some x =>
    by_cases hh : isHot s.hotFloor x = true
    · by_cases hf : op ∈ s.cachedEntries.first <;> simp [hh, hf]
    · simp [hh, hrow, rowFlushed, hx]

theorem resolve_writeFull_iff :
    (∀ op, (s.writeFull sz disk).1.resolve (s.writeFull sz disk).2 op = s.resolve disk op) ↔ FlushSafe s disk := by
  simp only [resolve_writeFull]
  constructor
  · intro h
    refine ⟨fun op e hx hs hh => ?_, fun op e hx hs hm hc => ?_⟩
    · have hop := h op
      have hhot : isHot s.hotFloor (some e) = true := by simp [isHot, hs, hh]
      by_contra hf
      simp [hx, hhot, hf, resolve, lookup, unspent, hs] at hop
    · have hop := h op
      have hcold : ¬ s.hotFloor ≤ e.blockHeight := by omega
      simpa [hx, isHot, hs, hcold, rowAfter, hm, resolve, lookup, unspent] using hop
  · intro h op
    simp only [resolve, lookup]
    cases hx : s.get op with
    | none => simp
    | some x =>
      cases x with
      | none => simp [rowAfter]
      | some e =>
        cases hs : e.isSpent with
        | true => simp [rowAfter, unspent, hs]
        | false =>
          by_cases hh : s.hotFloor ≤ e.blockHeight
          · simp [isHot, hs, hh, h.hot op e hx hs hh]
          · cases hm : e.isModified with
            | true => simp [isHot, hh, rowAfter, hm, unspent]
            | false => simp [isHot, hh, rowAfter, unspent, h.cold op e hx hs hm (by omega)]

/-- A safe flush leaves a cache whose next full flush is safe: what is left is hot and in the first
map. -/
theorem FlushSafe.writeFull (h : FlushSafe s disk) : FlushSafe (s.writeFull sz disk).1 (s.writeFull sz disk).2 := by
  obtain ⟨-, hget, -, -, hmeta⟩ := writeFull_spec sz s disk
  have hleft : ∀ op e, (s.writeFull sz disk).1.get op = some (some e) →
      op ∈ (s.writeFull sz disk).1.cachedEntries.first ∧ s.hotFloor ≤ e.blockHeight := by
    intro op e he
    rw [hget] at he
    obtain ⟨x, hx, hxe⟩ := Option.bind_eq_some_iff.1 he
    split at hxe
    next hh =>
      cases x with
      | none => simp [isHot] at hh
      | some e' =>
        obtain ⟨hs, hfl⟩ : e'.isSpent = false ∧ s.hotFloor ≤ e'.blockHeight := by simpa [isHot] using hh
        have hf := h.hot op e' hx hs hfl
        refine ⟨mem_first_writeFull sz hf hx hh, ?_⟩
        simp only [if_pos hf, Option.some.injEq, Option.map_some] at hxe
        rw [← hxe]
        unfold UtxoEntry.flushed
        split <;> exact hfl
    next => cases hxe
  refine ⟨fun op e he _ _ => (hleft op e he).1, fun op e he _ _ hc => ?_⟩
  have := (hleft op e he).2
  rw [hmeta.hotFloor] at hc
  omega

theorem resolve_writeCache_iff (db : Db) (best : Hash) :
    (∀ op, (s.writeCache sz db best true).1.resolve (s.writeCache sz db best true).2.utxoSet op =
      s.resolve db.utxoSet op) ↔ FlushSafe s db.utxoSet := resolve_writeFull_iff sz

theorem FlushSafe.writeCache (db : Db) (best : Hash) (h : FlushSafe s db.utxoSet) :
    FlushSafe (s.writeCache sz db best true).1 (s.writeCache sz db best true).2.utxoSet :=
  have h' := h.writeFull sz
  ⟨h'.hot, h'.cold⟩

/-- A full flush keeps the utxo set, however often it is repeated, exactly when it is safe. -/
theorem full_flush_keeps_iff (sz : SizeHelper) (s : UtxoCache) (db : Db) (best best' : Hash) :
    FullFlushKeeps sz s db best best' ↔ FlushSafe s db.utxoSet := by
  unfold FullFlushKeeps
  simp only [fetchUnspent_eq, List.cons.injEq, and_true]
  refine Iff.trans ⟨fun h => h.1, fun h => ⟨h, fun op => ?_⟩⟩ (resolve_writeCache_iff sz db best)
  have hsafe := ((resolve_writeCache_iff sz db best).1 h).writeCache sz db best
  rw [(resolve_writeCache_iff sz _ best').2 hsafe op, h op]

/-! ## A lost output -/

/-- What `sizehelper.go` computes for a cache limited to 600 bytes: no number of entries fits, and a
map takes 416 bytes. -/
def tinySizes : SizeHelper := ⟨fun _ => 416, fun _ => 0⟩

/-- A cache of 600 bytes with one new output, which went into a second map. -/
def spilledCache : UtxoCache :=
  (new tinySizes 600).addTxOut tinySizes ⟨7, 0⟩ ⟨50, [0x51]⟩ true 5

/-- The flush writes the output's row and hides it behind a nil entry; the second flush deletes the
row. -/
theorem full_flush_loses_output : fetchUnspent tinySizes spilledCache emptyDb ⟨7, 0⟩ =
    [some ⟨50, [0x51], 5, true⟩] ∧ ¬ FullFlushKeeps tinySizes spilledCache emptyDb 1 1 ∧
    (let r := spilledCache.writeCache tinySizes emptyDb 1 true
     fetchUnspent tinySizes r.1 r.2 ⟨7, 0⟩ = [none] ∧ r.2.utxoSet ⟨7, 0⟩ = some ⟨50, [0x51], 5, true⟩ ∧
       (r.1.writeCache tinySizes r.2 1 true).2.utxoSet ⟨7, 0⟩ = none) := by
  refine ⟨by decide, fun h => absurd (h.1 ⟨7, 0⟩) (by decide), by decide, by decide, by decide⟩

end IniNode
