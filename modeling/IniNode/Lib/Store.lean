import Mathlib
/-!
# Keyed stores and the writes made to them

A store is read by key; a write puts a value under a key or deletes the key. Lists of writes
are applied in order, and a key that no write names keeps its value. `foldl_keyed` is the rule
for a loop over a map that, at each pair, changes only what is seen under that pair's key: what
is seen under a key afterwards depends on that key's pair alone, in whatever order the map is
walked. `retain` is the loop that deletes the pairs whose value fails a test.
-/

open List Option

namespace IniNode.Lib

open AList
variable {κ ν σ β : Type} [DecidableEq κ] {m : AList fun _ : κ => ν}

/-- A store as its reader sees it: the value under each key, if there is one. -/
abbrev Store (κ ν : Type) := κ → Option ν

/-- One write: the value to put under the key, or none to delete it. -/
structure Write (κ ν : Type) where
  key : κ
  value : Option ν
deriving DecidableEq

namespace Store

variable (s : Store κ ν) (w : Write κ ν)

def write : Store κ ν := Function.update s w.key w.value

variable (ws : List (Write κ ν))

def writeAll : Store κ ν := ws.foldl write s

@[simp] theorem write_apply (k : κ) : s.write w k = if k = w.key then w.value else s k := by
  simp [write, Function.update_apply]

@[simp] theorem writeAll_nil : s.writeAll [] = s := rfl

@[simp] theorem writeAll_cons : s.writeAll (w :: ws) = (s.write w).writeAll ws := rfl

theorem writeAll_append (ws' : List (Write κ ν)) : s.writeAll (ws ++ ws') = (s.writeAll ws).writeAll ws' := foldl_append

variable {ws : List (Write κ ν)} {s : Store κ ν} {k : κ}

theorem writeAll_untouched (h : k ∉ ws.map Write.key) (s : Store κ ν) :
    s.writeAll ws k = s k := by
  induction ws generalizing s with
  | nil => rfl
  | cons w ws ih =>
    simp only [map_cons, mem_cons, not_or] at h
    rw [writeAll_cons, ih h.2, write_apply, if_neg h.1]

theorem of_write {w : Write κ ν} {v : ν} (h : s.write w k = some v) :
    k = w.key ∧ w.value = some v ∨ k ≠ w.key ∧ s k = some v := by
  rw [write_apply] at h
  split at h
  next hk => exact .inl ⟨hk, h⟩
  next hk => exact .inr ⟨hk, h⟩

/-- What is under a key after some writes is from one of them, or from before if none names the key. -/
theorem of_writeAll {v : ν} (h : s.writeAll ws k = some v) :
    (∃ w ∈ ws, w.key = k ∧ w.value = some v) ∨ k ∉ ws.map Write.key ∧ s k = some v := by
  induction ws generalizing s with
  | nil => exact .inr ⟨not_mem_nil, h⟩
  | cons w ws ih =>
    obtain ⟨w', hw', heq⟩ | ⟨hws, hk⟩ := ih h
    · exact .inl ⟨w', mem_cons_of_mem _ hw', heq⟩
    · obtain ⟨hkey, hk⟩ | ⟨hkey, hk⟩ := of_write hk
      · exact .inl ⟨w, mem_cons_self, hkey.symm, hk⟩
      · exact .inr ⟨by simpa [hkey] using hws, hk⟩

/-- Writes that all agree with one function leave its values under the keys they name. -/
theorem writeAll_of_values {f : κ → Option ν} (h : ∀ w ∈ ws, w.value = f w.key)
    (s : Store κ ν) (k : κ) : s.writeAll ws k = if k ∈ ws.map Write.key then f k else s k := by
  induction ws generalizing s with
  | nil => simp
  | cons w ws ih =>
    rw [writeAll_cons, ih fun w' hw' => h w' (mem_cons_of_mem _ hw')]
    by_cases hk : k ∈ ws.map Write.key
    · simp [hk]
    · by_cases hw : k = w.key
      · subst hw
        simp [h w mem_cons_self]
      · simp [hw]

theorem writeAll_congr {s s' : Store κ ν} (h : s k = s' k) (ws : List (Write κ ν)) :
    s.writeAll ws k = s'.writeAll ws k := by
  induction ws generalizing s s' with
  | nil => exact h
  | cons w ws ih =>
    apply ih
    rw [write_apply, write_apply, h]

/-- Writes that delete nothing leave the last value written under a key, or else the one that was there. -/
theorem writeAll_or (h : ∀ w ∈ ws, w.value.isSome) (s : Store κ ν) (k : κ) :
    s.writeAll ws k = (writeAll (fun _ => none) ws k).or (s k) := by
  induction ws generalizing s with
  | nil => rfl
  | cons w ws ih =>
    have hws : ∀ w' ∈ ws, w'.value.isSome := fun w' hw' => h w' (mem_cons_of_mem _ hw')
    rw [writeAll_cons, writeAll_cons, ih hws, ih hws (write (fun _ => none) w), write_apply, write_apply]
    by_cases hk : k = w.key
    · obtain ⟨v, hv⟩ := isSome_iff_exists.1 (h w mem_cons_self)
      rw [if_pos hk, if_pos hk, hv, Option.or_assoc, some_or]
    · rw [if_neg hk, if_neg hk, or_none]

/-- Writes that delete nothing leave something under the keys they name, and under those that had something. -/
theorem isSome_writeAll (h : ∀ w ∈ ws, w.value.isSome)
    (hk : k ∈ ws.map Write.key ∨ (s k).isSome) : (s.writeAll ws k).isSome := by
  induction ws generalizing s with
  | nil => exact hk.resolve_left (by simp)
  | cons w ws ih =>
    refine ih (fun w' hw' => h w' (mem_cons_of_mem _ hw')) ?_
    rw [write_apply]
    by_cases hw : k = w.key
    · rw [if_pos hw]
      exact .inr (h w mem_cons_self)
    · rw [if_neg hw]
      exact hk.imp_left fun hm => (mem_cons.1 hm).resolve_left hw

theorem writeAll_mono {s t : Store κ ν} (h : ∀ k v, t k = some v → s k = some v) (ws : List (Write κ ν))
    (k : κ) (v : ν) (hk : t.writeAll ws k = some v) : s.writeAll ws k = some v := by
  induction ws generalizing s t with
  | nil => exact h k v hk
  | cons w ws ih =>
    refine ih (fun k' v' hk' => ?_) hk
    rw [write_apply] at hk' ⊢
    split at hk'
    next hw => rwa [if_pos hw]
    next hw => rw [if_neg hw, h k' v' hk']

/-- Deleting the keys that were written brings back a store that had nothing under them. -/
theorem writeAll_erase {ws ws' : List (Write κ ν)} (hkeys : ws'.map Write.key = ws.map Write.key)
    (herase : ∀ w ∈ ws', w.value = none) (hnew : ∀ w ∈ ws, s w.key = none) : (s.writeAll ws).writeAll ws' = s := by
  funext k
  rw [writeAll_of_values (f := fun _ => none) herase]
  by_cases hk : k ∈ ws.map Write.key
  · rw [if_pos (hkeys ▸ hk)]
    obtain ⟨w, hw, rfl⟩ := List.mem_map.1 hk
    exact (hnew w hw).symm
  · rw [if_neg (hkeys ▸ hk), writeAll_untouched hk]

/-- Writes to distinct keys change nothing exactly if what they write is there already. -/
theorem writeAll_eq_self_iff (hnd : (ws.map Write.key).Nodup) :
    s.writeAll ws = s ↔ ∀ w ∈ ws, s w.key = w.value := by
  constructor
  · intro h w hw
    obtain ⟨ws1, ws2, rfl⟩ := append_of_mem hw
    have hlast : w.key ∉ ws2.map Write.key := by
      rw [map_append] at hnd
      exact (nodup_cons.1 (nodup_append.1 hnd).2.1).1
    rw [← h, writeAll_append, writeAll_cons, writeAll_untouched hlast, write_apply, if_pos rfl]
  · intro h
    funext k
    rw [writeAll_of_values fun w hw => (h w hw).symm]
    exact ite_self _

end Store

/-! ## Loops over a map -/

section Keyed
variable (look : σ → κ → β) (step : σ → (_ : κ) × ν → σ) (g : κ → ν → β → β)

/-- What is seen under a key after a loop over a map's pairs, when the loop's body changes only
what is seen under the key it is at. -/
theorem foldl_keyed (hstep : ∀ s p k, look (step s p) k = if k = p.1 then g k p.2 (look s k) else look s k)
    (m : AList fun _ : κ => ν) (s : σ) (k : κ) :
    look (m.entries.foldl step s) k = ((m.lookup k).map fun v => g k v (look s k)).getD (look s k) := by
  obtain ⟨l, hl⟩ := m
  rw [AList.lookup]
  induction l generalizing s with
  | nil => rfl
  | cons p l ih =>
    obtain ⟨a, v⟩ := p
    have hl' := nodupKeys_cons.1 hl
    rw [foldl_cons, ih _ hl'.2, hstep]
    by_cases hk : k = a
    · subst hk
      rw [dlookup_eq_none.2 hl'.1]
      simp
    · simp [hk]

end Keyed

/-! ## Changing a map -/

theorem lookup_of_erase {k a : κ} {v : ν} (h : (m.erase k).lookup a = some v) :
    m.lookup a = some v := by
  by_cases hk : a = k
  · subst hk
    rw [lookup_erase] at h
    cases h
  · rwa [lookup_erase_ne hk] at h

theorem ne_of_lookup_erase {k a : κ} {v : ν} (h : (m.erase k).lookup a = some v) : a ≠ k := by
  rintro rfl
  rw [lookup_erase] at h
  cases h

theorem lookup_of_insert {k a : κ} {v w : ν} (h : (m.insert k w).lookup a = some v) :
    a = k ∧ v = w ∨ m.lookup a = some v := by
  by_cases hk : a = k
  · subst hk
    rw [lookup_insert] at h
    exact .inl ⟨rfl, (Option.some.inj h).symm⟩
  · rw [lookup_insert_ne hk] at h
    exact .inr h

def vals (m : AList fun _ : κ => ν) : List ν := m.entries.map Sigma.snd

theorem mem_vals {v : ν} : v ∈ vals m ↔ ∃ k, m.lookup k = some v := by
  rw [vals, List.mem_map]
  constructor
  · rintro ⟨⟨k, _⟩, h, rfl⟩
    exact ⟨k, mem_lookup_iff.2 h⟩
  · rintro ⟨k, h⟩
    exact ⟨⟨k, v⟩, mem_lookup_iff.1 h, rfl⟩

omit [DecidableEq κ] in
@[simp] theorem length_vals (m : AList fun _ : κ => ν) : (vals m).length = m.entries.length := length_map ..

theorem vals_perm_erase {k : κ} {v : ν} (h : m.lookup k = some v) :
    (vals m).Perm (v :: vals (m.erase k)) := by
  have hmem : ⟨k, v⟩ ∈ m.entries := mem_lookup_iff.1 h
  obtain ⟨_, l1, l2, hk, hm, he⟩ := exists_of_kerase (mem_keys_of_mem hmem)
  obtain rfl : _ = v := by
    have hv : ⟨k, _⟩ ∈ m.entries := hm ▸ mem_append_right l1 mem_cons_self
    exact mem_unique (mem_lookup_iff.2 hv) h
  have herase : (m.erase k).entries = l1 ++ l2 := he
  simp only [vals, hm, herase, map_append]
  exact perm_middle

theorem vals_insert {k : κ} (h : m.lookup k = none) (v : ν) :
    vals (m.insert k v) = v :: vals m := by
  rw [vals, entries_insert_of_notMem (lookup_eq_none.1 h)]
  rfl

theorem length_erase {k : κ} {v : ν} (h : m.lookup k = some v) :
    (m.erase k).entries.length + 1 = m.entries.length := by
  simpa using (vals_perm_erase h).length_eq.symm

variable {l : List ((_ : κ) × ν)}

/-- Pairs with different new keys are all there after they have been put in. -/
theorem entries_foldl_insert_perm (hl : l.NodupKeys)
    (hm : ∀ p ∈ l, p.1 ∉ m) : (l.foldl (fun m p => m.insert p.1 p.2) m).entries.Perm (l ++ m.entries) := by
  induction l generalizing m with
  | nil => exact Perm.refl _
  | cons p l ih =>
    obtain ⟨hp, hl⟩ := nodupKeys_cons.1 hl
    have hnew : ∀ q ∈ l, q.1 ∉ m.insert p.1 p.2 := by
      intro q hq hmem
      obtain heq | hmem := (mem_insert m).1 hmem
      · exact hp (heq ▸ mem_keys_of_mem hq)
      · exact hm q (mem_cons_of_mem p hq) hmem
    have ih := ih hl hnew
    rw [entries_insert_of_notMem (hm p mem_cons_self)] at ih
    exact ih.trans perm_middle

theorem length_insert_le (m : AList fun _ : κ => ν) (k : κ) (v : ν) :
    (m.insert k v).entries.length ≤ m.entries.length + 1 := by
  exact Nat.succ_le_succ (kerase_sublist k m.entries).length_le

theorem length_foldl_insert_le (l : List ((_ : κ) × ν)) (m : AList fun _ : κ => ν) :
    (l.foldl (fun m p => m.insert p.1 p.2) m).entries.length ≤ l.length + m.entries.length := by
  induction l generalizing m with
  | nil => exact Nat.le_of_eq (Nat.zero_add _).symm
  | cons p l ih =>
    have := ih (m.insert p.1 p.2)
    have := length_insert_le m p.1 p.2
    rw [foldl_cons, length_cons]
    omega

theorem nodupKeys_of_length_foldl_insert
    (h : (l.foldl (fun m p => m.insert p.1 p.2) m).entries.length = l.length + m.entries.length) :
    l.NodupKeys ∧ ∀ p ∈ l, p.1 ∉ m := by
  induction l generalizing m with
  | nil => exact ⟨nodupKeys_nil, nofun⟩
  | cons p l ih =>
    rw [foldl_cons, length_cons] at h
    have hle := length_foldl_insert_le l (m.insert p.1 p.2)
    have hnew : p.1 ∉ m := by
      intro hmem
      have hlen : (m.insert p.1 p.2).entries.length = m.entries.length := by
        obtain ⟨v, hv⟩ := isSome_iff_exists.1 (lookup_isSome.2 hmem)
        exact length_erase hv
      omega
    have hlen : (m.insert p.1 p.2).entries.length = m.entries.length + 1 := by
      rw [entries_insert_of_notMem hnew, length_cons]
    obtain ⟨hl, hm⟩ := @ih (m.insert p.1 p.2) (by omega)
    refine ⟨nodupKeys_cons.2 ⟨fun hmem => ?_, hl⟩, forall_mem_cons.2 ⟨hnew, fun q hq hmem => ?_⟩⟩
    · obtain ⟨v, hv⟩ := exists_of_mem_keys hmem
      exact hm _ hv ((mem_insert m).2 (.inl rfl))
    · exact hm q hq ((mem_insert m).2 (.inr hmem))

/-- The map without the pairs whose value fails the test. -/
def retain (p : ν → Bool) (m : AList fun _ : κ => ν) : AList fun _ : κ => ν where
  entries := m.entries.filter fun e => p e.2
  nodupKeys := m.nodupKeys.sublist filter_sublist

theorem lookup_retain (p : ν → Bool) (m : AList fun _ : κ => ν) (k : κ) :
    (retain p m).lookup k = (m.lookup k).filter p := by
  ext v
  rw [← mem_def, mem_lookup_iff, retain, mem_filter, filter_eq_some_iff, ← mem_def, mem_lookup_iff]

theorem mem_vals_retain {p : ν → Bool} {v : ν} :
    v ∈ vals (retain p m) ↔ v ∈ vals m ∧ p v = true := by
  simp [mem_vals, lookup_retain]

end IniNode.Lib
