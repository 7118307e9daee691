import IniNode.Utxo.Entry
/-!
# The cache's slice of maps

`mapSlice` spreads the cached entries over several Go maps so that no map grows past the number
of entries it was allocated for. A `MapSlice` carries what the code keeps true of the slice: as
many maximums as maps, at least one map, and no outpoint in two maps. Every operation is
described by what `get` returns after it.
-/

open List Option

namespace IniNode

/-- One map of the slice: a nil value says that the database holds no row for the outpoint. -/
abbrev EntryMap := AList fun _ : OutPoint => Option UtxoEntry

/-- The two estimates of `sizehelper.go` the cache sizes its maps by, for the bucket sizes it
passes: the memory a map made for a number of entries takes, and the number of entries that makes
a map take a number of bytes. -/
structure SizeHelper where
  calculateRoughMapSize : Int → Int
  calculateMinEntries : Int → Int

structure MapSlice where
  maps : List EntryMap
  maxEntries : List Int
  maxTotalMemoryUsage : UInt64
  sized : maps.length = maxEntries.length
  nonempty : maps ≠ []
  disjoint : maps.Pairwise fun m m' => ∀ op ∈ m, op ∉ m'

/-! ## Lists of maps -/

/-- The value under an outpoint in the first map that has it. -/
def lookupMaps (op : OutPoint) (ms : List EntryMap) : Option (Option UtxoEntry) :=
  ms.findSome? (·.lookup op)

/-- The first loop of `put`: overwrite the entry in the map that holds it. -/
def overwrite (op : OutPoint) (entry : Option UtxoEntry) : List EntryMap → List EntryMap
  | [] => []
  | m :: ms => if op ∈ m then m.insert op entry :: ms else m :: overwrite op entry ms

/-- The second loop of `put`: insert into the first map below its maximum. -/
def insertRoom (op : OutPoint) (entry : Option UtxoEntry) : List EntryMap → List Int → Option (List EntryMap)
  | m :: ms, maxNum :: ns =>
    if maxNum ≤ m.entries.length then (insertRoom op entry ms ns).map (m :: ·)
    else some (m.insert op entry :: ms)
  | _, _ => none

section Maps
variable {op op' : OutPoint} {entry : Option UtxoEntry} {m : EntryMap} {ms ms' : List EntryMap} {ns : List Int}

@[simp] theorem lookupMaps_nil : lookupMaps op [] = none := rfl

theorem lookupMaps_cons : lookupMaps op (m :: ms) = (m.lookup op).or (lookupMaps op ms) := by
  unfold lookupMaps
  rw [findSome?_cons]
  cases m.lookup op <;> rfl

theorem lookupMaps_eq_none : lookupMaps op ms = none ↔ ∀ m ∈ ms, op ∉ m := by
  simp [lookupMaps, AList.lookup_eq_none]

theorem lookupMaps_append : lookupMaps op (ms ++ ms') = (lookupMaps op ms).or (lookupMaps op ms') := by
  induction ms with
  | nil => rfl
  | cons m ms ih => rw [cons_append, lookupMaps_cons, lookupMaps_cons, ih, Option.or_assoc]

theorem lookup_insert_eq : (m.insert op entry).lookup op' = if op' = op then some entry else m.lookup op' := by
  by_cases h : op' = op
  · subst h; simp
  · rw [if_neg h, AList.lookup_insert_ne h]

theorem lookup_erase_eq : (m.erase op).lookup op' = if op' = op then none else m.lookup op' := by
  by_cases h : op' = op
  · subst h; simp
  · rw [if_neg h, AList.lookup_erase_ne h]

theorem lookupMaps_of_mem (hd : ms.Pairwise fun m m' => ∀ op ∈ m, op ∉ m') (hm : m ∈ ms) (hop : op ∈ m) :
    lookupMaps op ms = m.lookup op := by
  obtain ⟨pre, post, rfl⟩ := append_of_mem hm
  have hpre : ∀ m' ∈ pre, op ∉ m' := fun m' hm' h => (pairwise_append.1 hd).2.2 m' hm' m (by simp) op h hop
  obtain ⟨v, hv⟩ := isSome_iff_exists.1 (AList.lookup_isSome.2 hop)
  rw [lookupMaps_append, lookupMaps_eq_none.2 hpre, lookupMaps_cons, hv]
  rfl

/-! ### Putting an entry into one of the maps -/

/-- `ms'` is `ms` with the entry put into one map, and no other map has the outpoint. -/
def PutInto (op : OutPoint) (entry : Option UtxoEntry) (ms ms' : List EntryMap) : Prop :=
  ∃ pre m post, ms = pre ++ m :: post ∧ ms' = pre ++ m.insert op entry :: post ∧ ∀ m' ∈ pre ++ post, op ∉ m'

theorem putInto_overwrite (hd : ms.Pairwise fun m m' => ∀ op ∈ m, op ∉ m') (hop : lookupMaps op ms ≠ none) :
    PutInto op entry ms (overwrite op entry ms) := by
  induction ms with
  | nil => simp at hop
  | cons m ms ih =>
    obtain ⟨hd, hd'⟩ := pairwise_cons.1 hd
    unfold overwrite
    split
    next h => exact ⟨[], m, ms, rfl, rfl, fun m' hm' => hd m' hm' op h⟩
    next h =>
      rw [lookupMaps_cons, AList.lookup_eq_none.2 h] at hop
      obtain ⟨pre, m', post, rfl, heq, hother⟩ := ih hd' hop
      exact ⟨m :: pre, m', post, rfl, by rw [heq]; rfl, forall_mem_cons.2 ⟨h, hother⟩⟩

theorem putInto_insertRoom (hop : ∀ m ∈ ms, op ∉ m) (h : insertRoom op entry ms ns = some ms') :
    PutInto op entry ms ms' := by
  induction ms generalizing ns ms' with
  | nil => simp [insertRoom] at h
  | cons m ms ih =>
    obtain ⟨hm, hop⟩ := forall_mem_cons.1 hop
    cases ns with
    | nil => simp [insertRoom] at h
    | cons n ns =>
      unfold insertRoom at h
      split at h
      · obtain ⟨l, hl, rfl⟩ := map_eq_some_iff.1 h
        obtain ⟨pre, m', post, rfl, rfl, hother⟩ := ih hop hl
        exact ⟨m :: pre, m', post, rfl, rfl, forall_mem_cons.2 ⟨hm, hother⟩⟩
      · cases h
        exact ⟨[], m, ms, rfl, rfl, hop⟩

namespace PutInto

section

variable (h : PutInto op entry ms ms')

include h

theorem length_eq : ms'.length = ms.length := by
  obtain ⟨pre, m, post, rfl, rfl, -⟩ := h
  simp

theorem ne_nil : ms' ≠ [] := by
  obtain ⟨pre, m, post, rfl, rfl, -⟩ := h
  simp

theorem pairwise (hd : ms.Pairwise fun m m' => ∀ op ∈ m, op ∉ m') :
    ms'.Pairwise fun m m' => ∀ op ∈ m, op ∉ m' := by
  obtain ⟨pre, m, post, rfl, rfl, hother⟩ := h
  obtain ⟨hpre, hpost, hcross⟩ := pairwise_append.1 hd
  obtain ⟨hm, hpost⟩ := pairwise_cons.1 hpost
  refine pairwise_append.2 ⟨hpre, pairwise_cons.2 ⟨fun m' hm' x hx => ?_, hpost⟩, fun m' hm' m'' hm'' x hx hx' => ?_⟩
  · rcases (AList.mem_insert _).1 hx with rfl | hx
    · exact hother m' (by simp [hm'])
    · exact hm m' hm' x hx
  · rcases mem_cons.1 hm'' with rfl | hm''
    · rcases (AList.mem_insert _).1 hx' with rfl | hx'
      · exact hother m' (by simp [hm']) hx
      · exact hcross m' hm' m (by simp) x hx hx'
    · exact hcross m' hm' m'' (by simp [hm'']) x hx hx'

theorem lookupMaps_eq :
    lookupMaps op' ms' = if op' = op then some entry else lookupMaps op' ms := by
  obtain ⟨pre, m, post, rfl, rfl, hother⟩ := h
  simp only [lookupMaps_append, lookupMaps_cons, lookup_insert_eq]
  split
  next heq =>
    rw [heq, lookupMaps_eq_none.2 fun m' hm' => hother m' (by simp [hm'])]
    rfl
  next => rfl

theorem mem_headD :
    (op' ∈ ms.headD ∅ → op' ∈ ms'.headD ∅) ∧
      (op' ≠ op → op' ∈ ms'.headD ∅ → op' ∈ ms.headD ∅) := by
  obtain ⟨pre, m, post, rfl, rfl, -⟩ := h
  cases pre with
  | nil => exact ⟨fun h => (AList.mem_insert _).2 (.inr h), fun hne h => ((AList.mem_insert _).1 h).resolve_left hne⟩
  | cons _ _ => exact ⟨id, fun _ => id⟩

end

end PutInto

/-! ### Dropping entries -/

/-- Map by map, outpoints only leave. -/
def Thinned : List EntryMap → List EntryMap → Prop := Forall₂ fun m m' => ∀ x ∈ m', x ∈ m

theorem Thinned.pairwise (h : Thinned ms ms') (hd : ms.Pairwise fun m m' => ∀ op ∈ m, op ∉ m') :
    ms'.Pairwise fun m m' => ∀ op ∈ m, op ∉ m' := by
  have hmem : ∀ {ms ms' : List EntryMap}, Thinned ms ms' → ∀ m' ∈ ms', ∃ m ∈ ms, ∀ x ∈ m', x ∈ m := by
    intro ms ms' h
    induction h with
    | nil => simp
    | cons hm _ ih =>
      refine forall_mem_cons.2 ⟨⟨_, mem_cons_self, hm⟩, fun m' hm' => ?_⟩
      obtain ⟨m, hin, hsub⟩ := ih m' hm'
      exact ⟨m, mem_cons_of_mem _ hin, hsub⟩
  induction h with
  | nil => exact .nil
  | cons hm hms ih =>
    obtain ⟨hd, hd'⟩ := pairwise_cons.1 hd
    refine pairwise_cons.2 ⟨fun m' hm' x hx hx' => ?_, ih hd'⟩
    obtain ⟨m'', hm'', hsub⟩ := hmem hms m' hm'
    exact hd m'' hm'' x (hm x hx) (hsub x hx')

theorem Thinned.ne_nil (h : Thinned ms ms') (hne : ms ≠ []) : ms' ≠ [] := by
  cases h with
  | nil => exact absurd rfl hne
  | cons _ _ => exact cons_ne_nil _ _

end Maps

/-! ## The operations -/

namespace MapSlice

variable (ms : MapSlice)

def length : Nat := (ms.maps.map fun m => m.entries.length).sum

variable (sz : SizeHelper) (ms : MapSlice)

def size : Int := (ms.maxEntries.map sz.calculateRoughMapSize).sum

variable (op : OutPoint)

/-- `mapSlice.get`: none when the outpoint is not found. -/
def get : Option (Option UtxoEntry) := lookupMaps op ms.maps

def first : EntryMap := ms.maps.headD ∅

/-- The number of entries `makeNewMap` allocates the new map for. -/
def newMapEntries (totalEntryMemory : UInt64) : Int :=
  let leftover := ms.maxTotalMemoryUsage.toInt64.toInt - totalEntryMemory.toInt64.toInt - ms.size sz
  let memSize := if 0 < leftover then leftover else 0
  sz.calculateMinEntries memSize - 1

/-- `mapSlice.put`: overwrite the entry where it is, else insert it into the first map with room,
else into a new map. -/
def put (entry : Option UtxoEntry) (totalEntryMemory : UInt64) : MapSlice :=
  if hop : lookupMaps op ms.maps = none then
    have hop' := lookupMaps_eq_none.1 hop
    match hr : insertRoom op entry ms.maps ms.maxEntries with
    | some maps =>
      { ms with
        maps := maps
        sized := (putInto_insertRoom hop' hr).length_eq.trans ms.sized
        nonempty := (putInto_insertRoom hop' hr).ne_nil
        disjoint := (putInto_insertRoom hop' hr).pairwise ms.disjoint }
    | none =>
      { ms with
        maps := ms.maps ++ [(∅ : EntryMap).insert op entry]
        maxEntries := ms.maxEntries ++ [newMapEntries sz ms totalEntryMemory]
        sized := by simp [ms.sized]
        nonempty := by simp
        disjoint := pairwise_append.2 ⟨ms.disjoint, by simp, fun m hm m' hm' x hx hx' => by
          rw [mem_singleton.1 hm', AList.mem_insert] at hx'
          rcases hx' with rfl | hx'
          · exact hop' m hm hx
          · exact absurd hx' (AList.notMem_empty x)⟩ }
  else
    { ms with
      maps := overwrite op entry ms.maps
      sized := (putInto_overwrite ms.disjoint hop).length_eq.trans ms.sized
      nonempty := (putInto_overwrite ms.disjoint hop).ne_nil
      disjoint := (putInto_overwrite ms.disjoint hop).pairwise ms.disjoint }

/-- `mapSlice.delete` deletes the outpoint from every map. -/
def delete : MapSlice :=
  { ms with
    maps := ms.maps.map (·.erase op)
    sized := by simp [ms.sized]
    nonempty := by simp [ms.nonempty]
    disjoint := by
      refine pairwise_map.2 (ms.disjoint.imp fun {m m'} h x hx hx' => ?_)
      exact h x (AList.mem_erase.1 hx).2 (AList.mem_erase.1 hx').2 }

/-- `mapSlice.deleteMaps` keeps the first map and its maximum. -/
def deleteMaps : MapSlice :=
  { ms with
    maps := ms.maps.take 1
    maxEntries := ms.maxEntries.take 1
    sized := by simp [ms.sized]
    nonempty := by simp [ms.nonempty]
    disjoint := ms.disjoint.sublist (take_sublist _ _) }

variable (sz : SizeHelper) (ms : MapSlice) (op op' : OutPoint) (entry : Option UtxoEntry) (mem : UInt64)

@[simp] theorem get_put : (ms.put sz op entry mem).get op' = if op' = op then some entry else ms.get op' := by
  unfold get put
  split
  next hop =>
    have hop' := lookupMaps_eq_none.1 hop
    split
    next maps hr => exact (putInto_insertRoom hop' hr).lookupMaps_eq
    next hr =>
      simp only [lookupMaps_append, lookupMaps_cons, lookup_insert_eq]
      split
      next e => rw [e, hop]; rfl
      next => simp
  next hop => exact (putInto_overwrite ms.disjoint hop).lookupMaps_eq

@[simp] theorem get_delete : (ms.delete op).get op' = if op' = op then none else ms.get op' := by
  simp only [get, delete]
  induction ms.maps with
  | nil => simp
  | cons m l ih =>
    rw [map_cons, lookupMaps_cons, lookupMaps_cons, ih, lookup_erase_eq]
    split <;> rfl

theorem maps_eq_cons : ∃ rest, ms.maps = ms.first :: rest := by
  unfold first
  cases h : ms.maps with
  | nil => exact absurd h ms.nonempty
  | cons m rest => exact ⟨rest, rfl⟩

@[simp] theorem get_deleteMaps : ms.deleteMaps.get op = ms.first.lookup op := by
  have : ∀ l : List EntryMap, l ≠ [] → lookupMaps op (l.take 1) = (l.headD ∅).lookup op
    | [], h => absurd rfl h
    | m :: l, _ => by simp [lookupMaps_cons]
  exact this ms.maps ms.nonempty

theorem first_deleteMaps : ms.deleteMaps.first = ms.first := by
  have : ∀ l : List EntryMap, (l.take 1).headD ∅ = l.headD ∅
    | [] => rfl
    | _ :: _ => rfl
  exact this ms.maps

variable {op op'}

theorem get_of_mem_first (h : op ∈ ms.first) : ms.get op = ms.first.lookup op := by
  obtain ⟨rest, hmaps⟩ := ms.maps_eq_cons
  exact lookupMaps_of_mem ms.disjoint (by rw [hmaps]; simp) h

theorem mem_first_put : (op' ∈ ms.first → op' ∈ (ms.put sz op entry mem).first) ∧
    (op' ≠ op → op' ∈ (ms.put sz op entry mem).first → op' ∈ ms.first) := by
  unfold put
  split
  next hop =>
    split
    next maps hr => exact (putInto_insertRoom (lookupMaps_eq_none.1 hop) hr).mem_headD
    next =>
      have hhead : ∀ l l' : List EntryMap, l ≠ [] → (l ++ l').headD ∅ = l.headD ∅
        | [], _, h => absurd rfl h
        | _ :: _, _, _ => rfl
      rw [first, first, hhead ms.maps _ ms.nonempty]
      exact ⟨id, fun _ => id⟩
  next hop => exact (putInto_overwrite ms.disjoint hop).mem_headD

end MapSlice

end IniNode
