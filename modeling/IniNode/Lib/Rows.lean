import IniNode.Lib.Store
/-!
# Rows of a store

What an iterator over a range of keys hands out: every row of the store whose key is in the range, once, in some order.
The order does not matter for a sum over the rows, so the sum can be followed write by write.
-/

open List

namespace IniNode.Lib

variable {κ ν : Type} {s t : Store κ ν} {p : κ → Prop} {rows rows' : List (κ × ν)} {k : κ} {v : ν}

structure Lists (s : Store κ ν) (p : κ → Prop) (rows : List (κ × ν)) : Prop where
  nodup : rows.Nodup
  mem : ∀ k v, (k, v) ∈ rows ↔ p k ∧ s k = some v

namespace Lists

theorem perm (h : Lists s p rows) (h' : Lists s p rows') : rows.Perm rows' :=
  (perm_ext_iff_of_nodup h.nodup h'.nodup).2 fun r => (h.mem r.1 r.2).trans (h'.mem r.1 r.2).symm

theorem empty : Lists (fun _ : κ => (none : Option ν)) p [] := ⟨nodup_nil, by simp⟩

theorem congr (h : Lists s p rows) (ht : ∀ k, p k → t k = s k) : Lists t p rows :=
  ⟨h.nodup, fun k v => (h.mem k v).trans (and_congr_right fun hp => by rw [ht k hp])⟩

variable [DecidableEq κ]

theorem write_other {w : Write κ ν} (h : Lists s p rows) (hw : ¬ p w.key) : Lists (s.write w) p rows := by
  refine h.congr fun k hp => ?_
  rw [Store.write_apply, if_neg]
  rintro rfl
  exact hw hp

theorem write_new (h : Lists s p rows) (hp : p k) (hk : s k = none) :
    Lists (s.write ⟨k, some v⟩) p ((k, v) :: rows) where
  nodup := by
    refine nodup_cons.2 ⟨fun hm => ?_, h.nodup⟩
    have := ((h.mem k v).1 hm).2
    rw [hk] at this
    cases this
  mem k' v' := by
    rw [mem_cons, h.mem]
    by_cases hkk : k' = k
    · subst hkk
      simp [hk, hp, eq_comm]
    · simp [hkk]

theorem write_erase [DecidableEq ν] (h : Lists s p rows) (hk : s k = some v) :
    Lists (s.write ⟨k, none⟩) p (rows.erase (k, v)) where
  nodup := h.nodup.erase _
  mem k' v' := by
    rw [h.nodup.mem_erase_iff, h.mem, Store.write_apply, ne_eq, Prod.mk.injEq]
    by_cases hkk : k' = k
    · subst hkk
      simp only [hk, Option.some.injEq, if_true, reduceCtorEq, and_false, iff_false, true_and]
      exact fun h => h.1 h.2.2.symm
    · simp [hkk]

end Lists

variable (f : ν → Int)

def total (rows : List (κ × ν)) : Int := (rows.map fun r => f r.2).sum

@[simp] theorem total_nil : total f ([] : List (κ × ν)) = 0 := rfl

@[simp] theorem total_cons (r : κ × ν) (rows : List (κ × ν)) : total f (r :: rows) = f r.2 + total f rows :=
  sum_cons

theorem total_perm {f : ν → Int} (h : rows.Perm rows') : total f rows = total f rows' := (h.map _).sum_eq

theorem total_erase [DecidableEq κ] [DecidableEq ν] {f : ν → Int} (h : (k, v) ∈ rows) :
    total f (rows.erase (k, v)) = total f rows - f v := by
  have hsum : total f rows = f v + total f (rows.erase (k, v)) := total_perm (perm_cons_erase h)
  omega

end IniNode.Lib
