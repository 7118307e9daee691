import Mathlib
/-!
# Chains of links

Nodes that each link to at most one next node. `hop` is the node at which a walk of bounded length stops.
-/

namespace IniNode.Lib

variable {α : Type}

def hop (next : α → Option α) : Nat → Option α → Option α
  | 0, x => x
  | n + 1, x => hop next n (x.bind next)

variable {next : α → Option α}

theorem hop_succ (n : Nat) (a : α) : hop next (n + 1) (some a) = hop next n (next a) := rfl

theorem hop_none (n : Nat) : hop next n none = none := by
  induction n with
  | zero => rfl
  | succ n ih => exact ih

theorem hop_add (m n : Nat) (x : Option α) : hop next (m + n) x = hop next n (hop next m x) := by
  induction m generalizing x with
  | zero => rw [Nat.zero_add]; rfl
  | succ m ih => rw [Nat.succ_add]; exact ih (x.bind next)

end IniNode.Lib
