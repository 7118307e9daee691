import IniNode.Chain.Db
import IniNode.Utxo.Cache
/-!
# Flushing the utxo cache

`writeCache` in both its modes and `flush`, which decides between them. A full flush writes every
cached entry, drops the cold ones, deletes every map but the first, and looks the hot entries up
again in what is left. Each mode has a lemma saying, for every outpoint, the row and the cached entry
it leaves.
-/

open IniNode.Lib

namespace IniNode

open UtxoEntry
/-! ## The full flush -/

/-- What a flush does to the row of a cached entry: the row of a nil or spent entry is deleted, an
unmodified entry's is left alone, a modified entry is written. -/
def flushRow (disk : UtxoBucket) (op : OutPoint) : Option UtxoEntry → UtxoBucket
  | none => dbDeleteUtxoEntry disk op
  | some e =>
    if e.isSpent then dbDeleteUtxoEntry disk op
    else if !e.isModified then disk
    else dbPutUtxoEntry disk op e

/-- An unspent entry at or above the floor stays resident. -/
def isHot (hotFloor : Int) : Option UtxoEntry → Bool
  | none => false
  | some e => !e.isSpent && hotFloor ≤ e.blockHeight

/-- The flags of an unspent entry after it has been written. -/
def UtxoEntry.flushed (e : UtxoEntry) : UtxoEntry := if e.isModified then e.clearModified else e

@[simp] theorem unspent_flushed (x : Option UtxoEntry) : unspent (x.map flushed) = unspent x := by
  cases x with
  | none => rfl
  | some e =>
    simp only [Option.map_some, flushed]
    split <;> rfl

/-- The state of the loop over a map. -/
structure FullFlush where
  disk : UtxoBucket
  hotEntries : List OutPoint
  map : EntryMap

def flushEntry (hotFloor : Int) (acc : FullFlush) (p : (_ : OutPoint) × Option UtxoEntry) : FullFlush :=
  { disk := flushRow acc.disk p.1 p.2
    hotEntries := if isHot hotFloor p.2 then acc.hotEntries ++ [p.1] else acc.hotEntries
    map := if isHot hotFloor p.2 then acc.map.insert p.1 (p.2.map flushed) else acc.map.erase p.1 }

def flushMap (hotFloor : Int) (disk : UtxoBucket) (hotEntries : List OutPoint) (m : EntryMap) : FullFlush :=
  m.entries.foldl (flushEntry hotFloor) ⟨disk, hotEntries, m⟩

/-- The loop over the maps: the rows, the hot outpoints, and the maps with the cold entries deleted. -/
def flushMaps (hotFloor : Int) : UtxoBucket → List OutPoint → List EntryMap →
    UtxoBucket × List OutPoint × List EntryMap
  | disk, hotEntries, [] => (disk, hotEntries, [])
  | disk, hotEntries, m :: ms =>
    let r := flushMap hotFloor disk hotEntries m
    let (disk, hotEntries, ms) := flushMaps hotFloor r.disk r.hotEntries ms
    (disk, hotEntries, r.map :: ms)

/-! ### One map -/

/-- The value under the key of a flushed entry. -/
def rowAfter (row : Option Coin) : Option UtxoEntry → Option Coin
  | none => none
  | some e => if e.isSpent then none else if !e.isModified then row else some e.coin

/-- What stays cached of an entry, in the map it is in. -/
def keptEntry (hotFloor : Int) (x : Option UtxoEntry) : Option (Option UtxoEntry) :=
  if isHot hotFloor x then some (x.map flushed) else none

theorem flushRow_apply (disk : UtxoBucket) (op k : OutPoint) (x : Option UtxoEntry) :
    flushRow disk op x k = if k = op then rowAfter (disk k) x else disk k := by
  cases x with
  | none => simp [flushRow, dbDeleteUtxoEntry, rowAfter]
  | some e =>
    unfold flushRow rowAfter dbDeleteUtxoEntry dbPutUtxoEntry
    cases hs : e.isSpent <;> cases hm : e.isModified <;> simp [hs, hm]

section Loop
variable (hotFloor : Int) (disk : UtxoBucket) (hotEntries : List OutPoint) (m : EntryMap) (k : OutPoint)

/-- What the loop over one map leaves under an outpoint: its row, its entry, and whether it was
recorded as hot. -/
theorem flushMap_spec :
    (flushMap hotFloor disk hotEntries m).disk k = ((m.lookup k).map (rowAfter (disk k))).getD (disk k) ∧
    (flushMap hotFloor disk hotEntries m).map.lookup k = (m.lookup k).bind (keptEntry hotFloor) ∧
    (k ∈ (flushMap hotFloor disk hotEntries m).hotEntries ↔
      k ∈ hotEntries ∨ ∃ x, m.lookup k = some x ∧ isHot hotFloor x = true) := by
  have h := foldl_keyed
    (fun (acc : FullFlush) k => (acc.disk k, acc.map.lookup k, k ∈ acc.hotEntries)) (flushEntry hotFloor)
    (fun _ x seen => (rowAfter seen.1 x, keptEntry hotFloor x, seen.2.2 ∨ isHot hotFloor x = true))
    (by
      intro acc p k
      simp only [flushEntry, flushRow_apply, keptEntry]
      by_cases hk : k = p.1 <;> by_cases hh : isHot hotFloor p.2 = true <;>
        simp [hk, hh, lookup_insert_eq, lookup_erase_eq])
    m ⟨disk, hotEntries, m⟩ k
  cases hm : m.lookup k with
  | none =>
    simp only [hm, Option.map_none, Option.getD_none, Prod.mk.injEq, eq_iff_iff] at h
    exact ⟨h.1, h.2.1, h.2.2.trans (by simp)⟩
  | some x =>
    simp only [hm, Option.map_some, Option.getD_some, Prod.mk.injEq, eq_iff_iff] at h
    exact ⟨h.1, h.2.1, h.2.2.trans (by simp)⟩

theorem mem_of_mem_flushMap {k : OutPoint} (h : k ∈ (flushMap hotFloor disk hotEntries m).map) : k ∈ m := by
  by_contra hk
  have h' := (flushMap_spec hotFloor disk hotEntries m k).2.1
  rw [AList.lookup_eq_none.2 hk] at h'
  exact AList.lookup_eq_none.1 h' h

/-! ### All maps -/

variable {ms : List EntryMap}

theorem thinned_flushMaps : Thinned ms (flushMaps hotFloor disk hotEntries ms).2.2 := by
  induction ms generalizing disk hotEntries with
  | nil => exact .nil
  | cons m ms ih => exact .cons (fun x hx => mem_of_mem_flushMap _ _ _ _ hx) (ih _ _)

theorem headD_flushMaps (h : ms ≠ []) :
    (flushMaps hotFloor disk hotEntries ms).2.2.headD ∅ = (flushMap hotFloor disk hotEntries (ms.headD ∅)).map := by
  cases ms with
  | nil => exact absurd rfl h
  | cons m ms => rfl

theorem flushMaps_spec (hd : ms.Pairwise fun m m' => ∀ op ∈ m, op ∉ m') :
    (flushMaps hotFloor disk hotEntries ms).1 k = ((lookupMaps k ms).map (rowAfter (disk k))).getD (disk k) ∧
    (k ∈ (flushMaps hotFloor disk hotEntries ms).2.1 ↔
      k ∈ hotEntries ∨ ∃ x, lookupMaps k ms = some x ∧ isHot hotFloor x = true) := by
  induction ms generalizing disk hotEntries with
  | nil => simp [flushMaps]
  | cons m ms ih =>
    obtain ⟨hd, hd'⟩ := List.pairwise_cons.1 hd
    obtain ⟨hrow, -, hhot⟩ := flushMap_spec hotFloor disk hotEntries m k
    obtain ⟨hrow', hhot'⟩ := ih (flushMap hotFloor disk hotEntries m).disk
      (flushMap hotFloor disk hotEntries m).hotEntries hd'
    rw [lookupMaps_cons]
    refine ⟨hrow'.trans ?_, hhot'.trans ?_⟩
    all_goals
      cases hm : m.lookup k with
      | none => simp [hm, hrow, hhot]
      | some x =>
        have hk : k ∈ m := AList.lookup_isSome.1 (by simp [hm])
        have hnone : lookupMaps k ms = none := lookupMaps_eq_none.2 fun m' hm' => hd m' hm' k hk
        simp [hm, hnone, hrow, hhot]

end Loop

def MapSlice.flush (hotFloor : Int) (disk : UtxoBucket) (ms : MapSlice) : MapSlice :=
  { ms with
    maps := (flushMaps hotFloor disk [] ms.maps).2.2
    sized := (thinned_flushMaps ..).length_eq.symm.trans ms.sized
    nonempty := (thinned_flushMaps ..).ne_nil ms.nonempty
    disjoint := (thinned_flushMaps ..).pairwise ms.disjoint }

theorem MapSlice.first_flush (hotFloor : Int) (disk : UtxoBucket) (ms : MapSlice) (k : OutPoint) :
    (ms.flush hotFloor disk).first.lookup k = (ms.first.lookup k).bind (keptEntry hotFloor) := by
  rw [← (flushMap_spec hotFloor disk [] _ _).2.1]
  exact congrArg (·.lookup k) (headD_flushMaps hotFloor disk [] ms.nonempty)

namespace UtxoCache

variable (sz : SizeHelper) (s : UtxoCache)

/-- The loop that puts the hot entries back: each is looked up in the map that is left. -/
def reinsert (hotEntries : List OutPoint) : UtxoCache :=
  hotEntries.foldl (fun s op => s.cacheEntry sz op ((s.get op).getD none)) s

/-- `writeCache` with `cleanCache` set, up to the consistency marker. -/
def writeFull (disk : UtxoBucket) : UtxoCache × UtxoBucket :=
  let (disk', hotEntries, _) := flushMaps s.hotFloor disk [] s.cachedEntries.maps
  let s := { s with
    cachedEntries := (s.cachedEntries.flush s.hotFloor disk).deleteMaps
    totalEntryMemory := 0
    dirtyOps := [] }
  (s.reinsert sz hotEntries, disk')

/-- One round of the incremental loop over the dirty outpoints. -/
def writeDirty (acc : UtxoCache × UtxoBucket) (op : OutPoint) : UtxoCache × UtxoBucket :=
  let (s, disk) := acc
  match s.get op with
  | none => (s, disk)
  | some none => (s.uncacheEntry op none, dbDeleteUtxoEntry disk op)
  | some (some e) =>
    if e.isSpent then (s.uncacheEntry op (some e), dbDeleteUtxoEntry disk op)
    else if !e.isModified then (s, disk)
    else
      ({ s with cachedEntries := s.cachedEntries.put sz op (some e.clearModified) s.totalEntryMemory },
       dbPutUtxoEntry disk op e)

/-- `writeCache` with `cleanCache` unset, up to the consistency marker. -/
def writeIncremental (disk : UtxoBucket) : UtxoCache × UtxoBucket :=
  let (s', disk') := s.dirtyOps.foldl (writeDirty sz) (s, disk)
  ({ s' with dirtyOps := [] }, disk')

def writeCache (db : Db) (best : Hash) (cleanCache : Bool) : UtxoCache × Db :=
  let (s, disk) := if cleanCache then s.writeFull sz db.utxoSet else s.writeIncremental sz db.utxoSet
  ({ s with lastFlushHash := best }, { db with utxoSet := disk }.putUtxoStateConsistency best)

end UtxoCache

inductive FlushMode where
  | flushRequired
  | flushPeriodic
  | flushIfNeeded
deriving DecidableEq, Repr

/-- The memory usage from which on `flush` writes. -/
def UtxoCache.flushThreshold (s : UtxoCache) (elapsed : Bool) : FlushMode → UInt64
  | .flushRequired => 0
  | .flushIfNeeded => s.maxTotalMemoryUsage
  | .flushPeriodic => if elapsed then 0 else s.maxTotalMemoryUsage

/-- `flush`. `elapsed` says that the periodic interval has passed since the last flush. -/
def UtxoCache.flush (sz : SizeHelper) (s : UtxoCache) (db : Db) (mode : FlushMode) (best : Hash) (elapsed : Bool) :
    UtxoCache × Db :=
  let totalUsage := s.totalMemoryUsage sz
  let cleanCache := mode = .flushRequired || s.maxTotalMemoryUsage ≤ totalUsage
  if mode = .flushIfNeeded ∧ best = s.lastFlushHash then (s, db)
  else if s.flushThreshold elapsed mode ≤ totalUsage then s.writeCache sz db best cleanCache
  else (s, db)

/-! ## What a flush leaves -/

namespace UtxoCache

section Spec
variable (sz : SizeHelper) {s : UtxoCache} {disk : UtxoBucket} {k : OutPoint}

/-- The row of an outpoint after its cached entry, if there is one, has been flushed. -/
def rowFlushed (s : UtxoCache) (disk : UtxoBucket) (k : OutPoint) : Option Coin :=
  ((s.get k).map (rowAfter (disk k))).getD (disk k)

theorem reinsert_spec (hot : List OutPoint) (s : UtxoCache) : let s' := s.reinsert sz hot
    (∀ k, s'.get k = if k ∈ hot then some ((s.get k).getD none) else s.get k) ∧ s'.dirtyOps = s.dirtyOps ∧
      s'.deltaPoints = s.deltaPoints ∧ SameMeta s s' := by
  induction hot generalizing s with
  | nil => exact ⟨fun k => by simp [reinsert], rfl, rfl, .refl s⟩
  | cons op hot ih =>
    obtain ⟨hget, hdirty, hdelta, hmeta⟩ := ih (s.cacheEntry sz op ((s.get op).getD none))
    refine ⟨fun k => ?_, hdirty, hdelta, hmeta.1, hmeta.2, hmeta.3, hmeta.4⟩
    refine (hget k).trans ?_
    by_cases hk : k ∈ hot <;> by_cases hop : k = op <;> simp [hop]

theorem mem_first_reinsert {op : OutPoint} (hot : List OutPoint) (s : UtxoCache) (h : op ∈ s.cachedEntries.first) :
    op ∈ (s.reinsert sz hot).cachedEntries.first := by
  induction hot generalizing s with
  | nil => exact h
  | cons op' hot ih => exact ih _ ((MapSlice.mem_first_put ..).1 h)

/-- A full flush writes every cached entry. Of the cached entries it keeps the hot ones; those that
were not in the first map come back as nil. -/
theorem writeFull_spec (s : UtxoCache) (disk : UtxoBucket) : let r := s.writeFull sz disk
    (∀ k, r.2 k = s.rowFlushed disk k) ∧
      (∀ k, r.1.get k = (s.get k).bind fun x => if isHot s.hotFloor x = true then
        some (if k ∈ s.cachedEntries.first then x.map flushed else none) else none) ∧
      r.1.dirtyOps = [] ∧ r.1.deltaPoints = s.deltaPoints ∧ SameMeta s r.1 := by
  have hmaps := fun k => flushMaps_spec s.hotFloor disk [] k s.cachedEntries.disjoint
  obtain ⟨hget, hdirty, hdelta, hmeta⟩ := reinsert_spec sz
    (flushMaps s.hotFloor disk [] s.cachedEntries.maps).2.1
    { s with
      cachedEntries := (s.cachedEntries.flush s.hotFloor disk).deleteMaps, totalEntryMemory := 0, dirtyOps := [] }
  refine ⟨fun k => (hmaps k).1, fun k => (hget k).trans ?_, hdirty, hdelta, hmeta.1, hmeta.2, hmeta.3, hmeta.4⟩
  have hfirst := (MapSlice.get_deleteMaps (s.cachedEntries.flush s.hotFloor disk) k).trans
    (MapSlice.first_flush s.hotFloor disk s.cachedEntries k)
  have hhot : k ∈ (flushMaps s.hotFloor disk [] s.cachedEntries.maps).2.1 ↔
      ∃ x, s.get k = some x ∧ isHot s.hotFloor x = true := (hmaps k).2.trans (by simp [get, MapSlice.get])
  simp only [get, hfirst]
  by_cases hk : k ∈ s.cachedEntries.first
  · rw [← s.cachedEntries.get_of_mem_first hk]
    cases hx : s.cachedEntries.get k with
    | none => simp [hhot, get, hx]
    | some x => by_cases hh : isHot s.hotFloor x = true <;> simp [hhot, get, hx, hk, hh, keptEntry]
  · rw [AList.lookup_eq_none.2 hk]
    cases hx : s.cachedEntries.get k with
    | none => simp [hhot, get, hx]
    | some x => by_cases hh : isHot s.hotFloor x = true <;> simp [hhot, get, hx, hk]

theorem mem_first_writeFull {x : Option UtxoEntry} (h : k ∈ s.cachedEntries.first) (hx : s.get k = some x)
    (hh : isHot s.hotFloor x = true) : k ∈ (s.writeFull sz disk).1.cachedEntries.first := by
  refine mem_first_reinsert _ _ _ ?_
  rw [MapSlice.first_deleteMaps, ← AList.lookup_isSome, MapSlice.first_flush,
    ← MapSlice.get_of_mem_first _ h, show s.cachedEntries.get k = some x from hx]
  simp [keptEntry, hh]

/-- What an incremental flush keeps of a dirty entry. -/
def keptDirty : Option UtxoEntry → Option (Option UtxoEntry)
  | none => none
  | some e => if e.isSpent then none else some (some e.flushed)

theorem keptDirty_keptDirty (x : Option UtxoEntry) : (keptDirty x).bind keptDirty = keptDirty x := by
  cases x with
  | none => rfl
  | some e => cases hs : e.isSpent <;> cases hm : e.isModified <;> simp [keptDirty, flushed, hs, hm]

theorem rowAfter_keptDirty (row : Option Coin) (x : Option UtxoEntry) :
    ((keptDirty x).map (rowAfter (rowAfter row x))).getD (rowAfter row x) = rowAfter row x := by
  cases x with
  | none => rfl
  | some e =>
    cases hs : e.isSpent <;> cases hm : e.isModified <;> simp [keptDirty, flushed, rowAfter, hs, hm]

/-- One round of the incremental loop flushes the row of its outpoint and drops its entry if it was
nil or spent. -/
theorem writeDirty_spec (s : UtxoCache) (disk : UtxoBucket) (op : OutPoint) : let r := writeDirty sz (s, disk) op
    (∀ k, r.2 k = if k = op then s.rowFlushed disk k else disk k) ∧
      (∀ k, r.1.get k = if k = op then (s.get k).bind keptDirty else s.get k) ∧
      r.1.deltaPoints = s.deltaPoints ∧ SameMeta s r.1 := by
  have hunchanged : ∀ {x}, s.get op = x → x.bind keptDirty = x → s.rowFlushed disk op = disk op →
      (∀ k, disk k = if k = op then s.rowFlushed disk k else disk k) ∧
      (∀ k, s.get k = if k = op then (s.get k).bind keptDirty else s.get k) := by
    intro x hx hkeep hrow
    constructor <;> intro k <;> split
    all_goals simp_all
  have hdeleted : ∀ {x}, s.get op = some x → keptDirty x = none → rowAfter (disk op) x = none →
      (∀ k, dbDeleteUtxoEntry disk op k = if k = op then s.rowFlushed disk k else disk k) ∧
      (∀ k, (s.uncacheEntry op x).get k = if k = op then (s.get k).bind keptDirty else s.get k) := by
    intro x hx hkeep hrow
    constructor <;> intro k
    · simp only [dbDeleteUtxoEntry, rowFlushed]
      split <;> simp_all
    · split <;> simp_all
  cases hx : s.get op with
  | none =>
    simp only [writeDirty, hx]
    obtain ⟨h, h'⟩ := hunchanged hx rfl (by simp [rowFlushed, hx])
    exact ⟨h, h', trivial, .refl s⟩
  | some x =>
    cases x with
    | none =>
      simp only [writeDirty, hx]
      obtain ⟨h, h'⟩ := hdeleted hx rfl rfl
      exact ⟨h, h', rfl, rfl, rfl, rfl, rfl⟩
    | some e =>
      by_cases hs : e.isSpent = true
      · simp only [writeDirty, hx, hs]
        obtain ⟨h, h'⟩ := hdeleted hx (by simp [keptDirty, hs]) (by simp [rowAfter, hs])
        exact ⟨h, h', rfl, rfl, rfl, rfl, rfl⟩
      · cases hm : e.isModified with
        | false =>
          simp only [writeDirty, hx, hs, hm]
          obtain ⟨h, h'⟩ := hunchanged hx (by simp [keptDirty, hs, flushed, hm])
            (by simp [rowFlushed, hx, rowAfter, hs, hm])
          exact ⟨h, h', rfl, .refl s⟩
        | true =>
          simp only [writeDirty, hx, hs, hm]
          refine ⟨fun k => ?_, fun k => (MapSlice.get_put ..).trans ?_, rfl, rfl, rfl, rfl, rfl⟩
          · simp only [dbPutUtxoEntry, rowFlushed]
            by_cases hk : k = op <;> simp_all [rowAfter]
          · split <;> simp_all [keptDirty, flushed, get]

/-- The incremental loop flushes the dirty outpoints; visiting one twice changes nothing more. -/
theorem foldl_writeDirty (ops : List OutPoint) (s : UtxoCache) (disk : UtxoBucket) :
    let r := ops.foldl (writeDirty sz) (s, disk)
    (∀ k, r.2 k = if k ∈ ops then s.rowFlushed disk k else disk k) ∧
      (∀ k, r.1.get k = if k ∈ ops then (s.get k).bind keptDirty else s.get k) ∧
      r.1.deltaPoints = s.deltaPoints ∧ SameMeta s r.1 := by
  induction ops generalizing s disk with
  | nil => exact ⟨fun k => rfl, fun k => rfl, rfl, .refl s⟩
  | cons op ops ih =>
    obtain ⟨hrow, hget, hdelta, hmeta⟩ := writeDirty_spec sz s disk op
    obtain ⟨hrow', hget', hdelta', hmeta'⟩ := ih (writeDirty sz (s, disk) op).1 (writeDirty sz (s, disk) op).2
    refine ⟨fun k => (hrow' k).trans ?_, fun k => (hget' k).trans ?_, hdelta'.trans hdelta, hmeta.trans hmeta'⟩
    · simp only [rowFlushed, hget, hrow]
      by_cases hop : k = op
      · subst hop
        cases hx : s.get k with
        | none => simp
        | some x => by_cases hk : k ∈ ops <;> simp [rowAfter_keptDirty]
      · by_cases hk : k ∈ ops <;> simp [hop]
    · rw [hget]
      by_cases hop : k = op
      · subst hop
        cases hx : s.get k with
        | none => simp
        | some x => by_cases hk : k ∈ ops <;> simp [keptDirty_keptDirty]
      · by_cases hk : k ∈ ops <;> simp [hop]

end Spec

end UtxoCache

end IniNode
