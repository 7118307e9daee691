import Mathlib
/-!
# Ranks in sorted lists
-/

open List

namespace IniNode.Lib

/-- A number is at most the one at `k` of a sorted list if at most `k` are less than it. -/
theorem le_getElem_iff_countP {α : Type} [LinearOrder α] {m : α} {l : List α} (hs : l.Pairwise (· ≤ ·)) {k : Nat}
    (hk : k < l.length) : m ≤ l[k] ↔ l.countP (· < m) ≤ k := by
  induction l generalizing k with
  | nil => exact absurd hk (Nat.not_lt_zero k)
  | cons x l ih =>
    obtain ⟨hx, hs⟩ := pairwise_cons.1 hs
    by_cases hlt : x < m
    · rw [countP_cons_of_pos (by simpa using hlt)]
      cases k with
      | zero => simpa using hlt
      | succ k => rw [getElem_cons_succ, ih hs (Nat.lt_of_succ_lt_succ hk), Nat.succ_le_succ_iff]
    · -- nothing from here on is less
      have hall : ∀ y ∈ x :: l, m ≤ y :=
        forall_mem_cons.2 ⟨not_lt.1 hlt, fun y hy => le_trans (not_lt.1 hlt) (hx y hy)⟩
      refine iff_of_true (hall _ (getElem_mem hk)) ?_
      rw [countP_eq_zero.2 fun y hy => by simpa using hall y hy]
      exact Nat.zero_le k

end IniNode.Lib
