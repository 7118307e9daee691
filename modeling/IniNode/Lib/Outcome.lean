import Mathlib
/-!
# Outcomes of computations that may fail

`Outcome Q E x` says that a computation in `Except` ends with a value that satisfies `Q` or with an error that
satisfies `E`. The rules are those for one step after another and for a loop over a list, whose invariant may speak
of the elements that are done.
-/

namespace IniNode.Lib

variable {ε α β : Type} {Q : α → Prop} {R : β → Prop} {E : ε → Prop}

/-- What holds of the result, or of the error. -/
def Outcome (Q : α → Prop) (E : ε → Prop) : Except ε α → Prop
  | .ok a => Q a
  | .error e => E e

theorem Outcome.imp {Q' : α → Prop} {x : Except ε α} (hx : Outcome Q E x) (h : ∀ a, Q a → Q' a) :
    Outcome Q' E x := by
  cases x with
  | ok a => exact h a hx
  | error e => exact hx

theorem Outcome.bind {x : Except ε α} {f : α → Except ε β} (hx : Outcome Q E x)
    (hf : ∀ a, Q a → Outcome R E (f a)) : Outcome R E (x.bind f) := by
  cases x with
  | ok a => exact hf a hx
  | error e => exact hx

theorem Outcome.foldlM {f : β → α → Except ε β} {I : List α → β → Prop} {b : β} {l : List α} (hb : I [] b)
    (hstep : ∀ done a b, done ++ [a] <+: l → I done b → Outcome (I (done ++ [a])) E (f b a)) :
    Outcome (I l) E (l.foldlM f b) := by
  -- the loop from any point on
  have h : ∀ done b rest, l = done ++ rest → I done b → Outcome (I l) E (rest.foldlM f b) := by
    intro done b rest hl hI
    induction rest generalizing done b with
    | nil =>
      rw [List.append_nil] at hl
      exact hl ▸ hI
    | cons a rest ih =>
      refine Outcome.bind (hstep done a b ⟨rest, by simp [hl]⟩ hI) fun b' hI' => ?_
      exact ih (done ++ [a]) b' (by simp [hl]) hI'
  exact h [] b l rfl hb

end IniNode.Lib
