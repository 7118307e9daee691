import IniNode.Utxo.Connect
import IniNode.Utxo.FullFlush
/-!
# Caches that can be flushed

How much has to be true of the cached entries so that every flush writes the utxo set. A nil or a spent
entry stands for an output that is not in the set; a modified entry is in the set as it is; and an
unmodified unspent entry may be out of date, but only by being spent: if its output was ever created, it
was created with that coin. Lookups and flushes keep this (`EntryOk`), and after a full flush only unmodified
unspent entries are left.
-/

open Option

namespace IniNode

/-- What a cached entry says of its output, given the live coin and the coin the output was created with. -/
def EntryOk (live origin : Option Coin) : Option UtxoEntry → Prop
  | none => live = none
  | some e =>
    if e.isSpent = true then live = none ∧ e.isModified = true
    else (origin = none ∨ origin = some e.coin) ∧ (e.isModified = true → live = some e.coin)

variable {live origin : Option Coin} {e : UtxoEntry}

theorem EntryOk.of_spent (h : EntryOk live origin (some e))
    (hs : e.isSpent = true) : live = none ∧ e.isModified = true := by
  rwa [EntryOk, if_pos hs] at h

theorem EntryOk.of_unspent (h : EntryOk live origin (some e))
    (hs : e.isSpent = false) :
    (origin = none ∨ origin = some e.coin) ∧ (e.isModified = true → live = some e.coin) := by
  rwa [EntryOk, if_neg (by simp [hs])] at h

theorem entryOk_of_unspent (hs : e.isSpent = false)
    (ho : origin = none ∨ origin = some e.coin) (hm : e.isModified = true → live = some e.coin) :
    EntryOk live origin (some e) := by
  rw [EntryOk, if_neg (by simp [hs])]
  exact ⟨ho, hm⟩

theorem kept_entryOk : UtxoCache.Kept EntryOk where
  spent := by
    intro o e hs hm
    rw [EntryOk, if_pos hs]
    exact ⟨rfl, hm⟩
  fresh := fun c => entryOk_of_unspent rfl (.inr rfl) fun _ => rfl

/-- Every unspent entry at or above the hot floor is in the first map of the slice. -/
def HotFirst (s : UtxoCache) : Prop :=
  ∀ op e, s.get op = some (some e) → e.isSpent = false → s.hotFloor ≤ e.blockHeight → op ∈ s.cachedEntries.first

namespace UtxoCache

variable (sz : SizeHelper) {s : UtxoCache} {disk : UtxoBucket} {l : UtxoLedger} {op : OutPoint}

/-! ## Lookups -/

theorem Tracks.fetchEntries (ht : Tracks EntryOk False disk s l)
    (hdisk : ∀ op c, disk op = some c → l.origin op = some c)
    (ops : List OutPoint) : Tracks EntryOk False disk (s.fetchEntries sz disk ops).2 l where
  finds := by
    intro k c hl
    rw [resolve, lookup_fetchEntries]
    exact ht.finds k c hl
  cached := by
    intro k x hx
    rw [(fetchEntries_spec sz s disk ops).2.1] at hx
    cases hk : s.get k with
    | some y =>
      rw [hk] at hx
      exact ht.cached k x (hk.trans hx)
    | none =>
      rw [hk] at hx
      split at hx
      · cases hx
        cases hrow : disk k with
        | none =>
          rw [dbFetchUtxoEntry, hrow]
          cases hl : l.live k with
          | none => rfl
          | some c =>
            have := ht.finds k c hl
            simp [resolve, lookup, hk, hrow] at this
        | some c =>
          rw [dbFetchUtxoEntry, hrow]
          exact entryOk_of_unspent rfl (.inr (hdisk k c hrow)) (by simp)
      · cases hx
  points := fun h => h.elim

/-! ## Full flushes -/

/-- The row a flush leaves is the live coin, if the entry is sound and an outpoint without dirty entry
has its row right already. -/
theorem rowFlushed_eq (hx : ∀ x, s.get op = some x → EntryOk (l.live op) (l.origin op) x)
    (hclean : op ∉ s.dirtyOps → disk op = l.live op)
    (hdirty : op ∈ s.dirtyOps → ∃ e, s.get op = some (some e) ∧ e.isModified = true ∧
      unspent (some e) = l.live op) :
    s.rowFlushed disk op = l.live op := by
  unfold rowFlushed
  by_cases hop : op ∈ s.dirtyOps
  · obtain ⟨e, he, hm, hl⟩ := hdirty hop
    simp [he, rowAfter, hm, ← hl, unspent]
  · have hrow := hclean hop
    cases hget : s.get op with
    | none => simpa using hrow
    | some x =>
      have hok := hx x hget
      cases x with
      | none => exact hok.symm
      | some e =>
        cases hs : e.isSpent with
        | true => simp [rowAfter, hs, (hok.of_spent hs).1]
        | false =>
          cases hm : e.isModified with
          | true => simp [rowAfter, hs, hm, (hok.of_unspent hs).2 hm]
          | false => simpa [rowAfter, hs, hm] using hrow

theorem flushed_of_writeFull {disk : UtxoBucket} {op : OutPoint} {x : Option UtxoEntry} (hhot : HotFirst s)
    (h : (s.writeFull sz disk).1.get op = some x) :
    ∃ e, s.get op = some (some e) ∧ e.isSpent = false ∧ x = some e.flushed := by
  rw [(writeFull_spec sz s disk).2.1] at h
  obtain ⟨_ | e, hy, h⟩ := bind_eq_some_iff.1 h
  · cases h
  obtain ⟨hh, h⟩ := ite_none_right_eq_some.1 h
  obtain ⟨hs, hfl⟩ : e.isSpent = false ∧ s.hotFloor ≤ e.blockHeight := by simpa [isHot] using hh
  rw [if_pos (hhot op e hy hs hfl)] at h
  exact ⟨e, hy, hs, (Option.some.inj h).symm⟩

/-- The entries a full flush leaves: unspent, unmodified, and not of another coin than the output's own. -/
def Resident (s : UtxoCache) (l : UtxoLedger) : Prop :=
  ∀ op x, s.get op = some x → ∃ e, x = some e ∧ e.isSpent = false ∧ e.isModified = false ∧
    (l.origin op = none ∨ l.origin op = some e.coin)

theorem resident_writeFull (disk : UtxoBucket)
    (hx : ∀ op x, s.get op = some x → EntryOk (l.live op) (l.origin op) x) (hhot : HotFirst s) :
    Resident (s.writeFull sz disk).1 l := by
  intro op x h
  obtain ⟨e, hy, hs, rfl⟩ := flushed_of_writeFull sz hhot h
  have ho := ((hx op _ hy).of_unspent hs).1
  refine ⟨e.flushed, rfl, ?_⟩
  unfold UtxoEntry.flushed
  split
  · exact ⟨hs, rfl, ho⟩
  next hm => exact ⟨hs, Bool.eq_false_iff.2 hm, ho⟩

theorem Resident.tracks (h : Resident s l) : Tracks EntryOk False l.live s l where
  finds := by
    intro k c hl
    unfold resolve lookup
    cases hk : s.get k with
    | none => simpa using hl
    | some x =>
      obtain ⟨e, rfl, hs, -, ho⟩ := h k x hk
      rw [l.live_origin k c hl] at ho
      rcases ho with ho | ho
      · cases ho
      · simp only [getD_some, unspent, hs]
        exact ho.symm
  cached := by
    intro k x hk
    obtain ⟨e, rfl, hs, hm, ho⟩ := h k x hk
    exact entryOk_of_unspent hs ho (by simp [hm])
  points := fun h => h.elim

section

variable (ht : Tracks EntryOk False disk s l) (hd : Dirty disk s l)

include ht hd

theorem writeFull_rows : (s.writeFull sz disk).2 = l.live := by
  funext k
  rw [(writeFull_spec sz s disk).1]
  exact rowFlushed_eq (ht.cached k) (hd.clean k) (hd.dirty k)

/-! ## Incremental flushes -/

theorem writeIncremental_rows :
    (s.writeIncremental sz disk).2 = l.live := by
  funext k
  have hrow : (s.writeIncremental sz disk).2 k = if k ∈ s.dirtyOps then s.rowFlushed disk k else disk k :=
    (foldl_writeDirty sz s.dirtyOps s disk).1 k
  rw [hrow]
  split
  · exact rowFlushed_eq (ht.cached k) (hd.clean k) (hd.dirty k)
  next hk => exact hd.clean k hk

theorem Tracks.writeIncremental :
    Tracks EntryOk False l.live (s.writeIncremental sz disk).1 l := by
  have hget : ∀ k, (s.writeIncremental sz disk).1.get k = if k ∈ s.dirtyOps then (s.get k).bind keptDirty else s.get k :=
    fun k => (foldl_writeDirty sz s.dirtyOps s disk).2.1 k
  have hkept : ∀ k ∈ s.dirtyOps, ∀ x, (s.get k).bind keptDirty = some x →
      ∃ e, x = some e ∧ e.isSpent = false ∧ l.live k = some e.coin := by
    intro k hk x hx
    obtain ⟨e, he, hm, hl⟩ := hd.dirty k hk
    rw [he, bind_some, keptDirty] at hx
    split at hx
    · cases hx
    next hs =>
      cases hx
      refine ⟨e.flushed, rfl, ?_, ?_⟩
      · simp [UtxoEntry.flushed, hm, hs]
      · simpa [UtxoEntry.flushed, hm, unspent, hs] using hl.symm
  refine ⟨fun k c hl => ?_, fun k x hx => ?_, fun h => h.elim⟩
  · unfold resolve lookup
    rw [hget]
    by_cases hk : k ∈ s.dirtyOps
    · rw [if_pos hk]
      cases hx : (s.get k).bind keptDirty with
      | none => simpa using hl
      | some x =>
        obtain ⟨e, rfl, hs, hl'⟩ := hkept k hk x hx
        simp only [getD_some, unspent, hs]
        exact hl'.symm.trans hl
    · rw [if_neg hk]
      have := ht.finds k c hl
      unfold resolve lookup at this
      cases hx : s.get k with
      | none => simpa using hl
      | some x => simpa [hx] using this
  · rw [hget] at hx
    split at hx
    next hk =>
      obtain ⟨e, rfl, hs, hl⟩ := hkept k hk x hx
      exact entryOk_of_unspent hs (.inr (l.live_origin k _ hl)) fun _ => hl
    next => exact ht.cached k x hx

end

/-! ## The flush -/

/-- What a flush that wrote leaves: the utxo set on disk, marked as that of the best block, and nothing
dirty. -/
structure Flushed (db : Db) (s : UtxoCache) (l : UtxoLedger) (best : Hash) (r : UtxoCache × Db) : Prop where
  db_eq : r.2 = { db with utxoSet := l.live, utxoStateConsistency := some best }
  tracks : Tracks EntryOk False l.live r.1 l
  dirtyOps : r.1.dirtyOps = []
  deltaPoints : r.1.deltaPoints = s.deltaPoints
  trackDeltas : r.1.trackDeltas = s.trackDeltas

theorem flushed_writeCache {db : Db} (best : Hash) (cleanCache : Bool) (ht : Tracks EntryOk False db.utxoSet s l)
    (hd : Dirty db.utxoSet s l) (hhot : cleanCache = true → HotFirst s) :
    Flushed db s l best (s.writeCache sz db best cleanCache) := by
  cases cleanCache with
  | true =>
    obtain ⟨-, -, hdirty, hdelta, hmeta⟩ := writeFull_spec sz s db.utxoSet
    have htracks : Tracks EntryOk False l.live (s.writeFull sz db.utxoSet).1 l :=
      (resident_writeFull sz _ ht.cached (hhot rfl)).tracks
    refine ⟨?_, ⟨htracks.finds, htracks.cached, fun h => h.elim⟩, hdirty, hdelta, hmeta.trackDeltas⟩
    simp [writeCache, writeFull_rows sz ht hd, Db.putUtxoStateConsistency]
  | false =>
    obtain ⟨-, -, hdelta, hmeta⟩ := foldl_writeDirty sz s.dirtyOps s db.utxoSet
    have htracks := ht.writeIncremental sz hd
    refine ⟨?_, ⟨htracks.finds, htracks.cached, fun h => h.elim⟩, rfl, hdelta, hmeta.trackDeltas⟩
    simp [writeCache, writeIncremental_rows sz ht hd, Db.putUtxoStateConsistency]

/-- The cache is flushed completely by a required flush and when it is full. -/
def FlushesFully (s : UtxoCache) (mode : FlushMode) : Prop :=
  mode = .flushRequired ∨ s.maxTotalMemoryUsage ≤ s.totalMemoryUsage sz

theorem flush_cases (db : Db) (mode : FlushMode) (best : Hash) (elapsed : Bool) :
    s.flush sz db mode best elapsed = (s, db) ∨
      ∃ cleanCache, s.flush sz db mode best elapsed = s.writeCache sz db best cleanCache ∧
        (cleanCache = true ↔ FlushesFully sz s mode) ∧ (mode ≠ .flushPeriodic → cleanCache = true) := by
  simp only [flush]
  split
  · exact .inl rfl
  · split
    next hth =>
      refine .inr ⟨_, rfl, by simp [FlushesFully], fun h => ?_⟩
      cases mode with
      | flushRequired => simp
      | flushIfNeeded => simpa [flushThreshold] using hth
      | flushPeriodic => exact absurd rfl h
    next => exact .inl rfl

theorem freshUnwritten_writeFull (hfresh : FreshUnwritten disk s) (disk' : UtxoBucket) :
    FreshUnwritten disk' (s.writeFull sz disk).1 := by
  intro op e he hef
  rw [(writeFull_spec sz s disk).2.1] at he
  obtain ⟨x, hx, h⟩ := bind_eq_some_iff.1 he
  split at h
  · split at h
    · obtain ⟨e', rfl, rfl⟩ := map_eq_some_iff.1 (Option.some.inj h)
      unfold UtxoEntry.flushed at hef
      split at hef
      · cases hef
      next hm => exact absurd (hfresh op e' hx hef).1 hm
    · cases h
  · cases h

end UtxoCache

end IniNode
