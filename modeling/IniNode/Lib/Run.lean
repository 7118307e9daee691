import Mathlib
/-!
# Runs of a labelled machine

A machine is a step function from a state and a label to the next state, or to none when the label is
not enabled. `run` takes a list of steps; `Along` says that every step of a run meets a condition in the
state it is taken in. `run_invariant` is the induction: what every step keeps under the condition
holds in every state a run reaches along it.
-/

open Option

namespace IniNode.Lib

variable {σ ℓ : Type} (step : σ → ℓ → Option σ)

/-- The state after the steps, if all can be taken. -/
def run : σ → List ℓ → Option σ
  | s, [] => some s
  | s, a :: as => (step s a).bind fun t => run t as

/-- Every step of the run meets the condition. -/
def Along (ok : σ → ℓ → Prop) : σ → List ℓ → Prop
  | _, [] => True
  | s, a :: as => ok s a ∧ ∀ t, step s a = some t → Along ok t as

variable {step} {ok : σ → ℓ → Prop} {as : List ℓ} {s : σ}

theorem along_cons {a : ℓ} :
    Along step ok s (a :: as) ↔ ok s a ∧ ∀ t, step s a = some t → Along step ok t as := Iff.rfl

theorem Along.cons {s t : σ} {a : ℓ} (hok : ok s a) (hst : step s a = some t) (h : Along step ok t as) :
    Along step ok s (a :: as) := ⟨hok, fun _ hu => mem_unique hst hu ▸ h⟩

instance decidableAlong {ok : σ → ℓ → Prop} [∀ s a, Decidable (ok s a)] :
    (s : σ) → (as : List ℓ) → Decidable (Along step ok s as)
  | _, [] => isTrue trivial
  | s, a :: as =>
    match h : step s a with
    | none => decidable_of_iff (ok s a) ⟨fun hok => ⟨hok, fun _ ht => absurd (h.symm.trans ht) nofun⟩, And.left⟩
    | some t =>
      have : Decidable (Along step ok t as) := decidableAlong t as
      decidable_of_iff (ok s a ∧ Along step ok t as)
        ⟨fun hok => ⟨hok.1, fun _ hu => some_inj.1 (h.symm.trans hu) ▸ hok.2⟩, fun hok => ⟨hok.1, hok.2 t h⟩⟩

theorem along_of_forall (h : ∀ s a, ok s a) (s : σ) (as : List ℓ) : Along step ok s as := by
  induction as generalizing s with
  | nil => trivial
  | cons a as ih => exact ⟨h s a, fun t _ => ih t⟩

theorem Along.and {ok ok' : σ → ℓ → Prop} (h : Along step ok s as) (h' : Along step ok' s as) :
    Along step (fun s a => ok s a ∧ ok' s a) s as := by
  induction as generalizing s with
  | nil => trivial
  | cons a as ih => exact ⟨⟨h.1, h'.1⟩, fun t ht => ih (h.2 t ht) (h'.2 t ht)⟩

/-- A condition on the labels alone can be added to one along the run. -/
theorem Along.and_forall {p : ℓ → Prop} (h : Along step ok s as)
    (hp : ∀ a ∈ as, p a) : Along step (fun s a => ok s a ∧ p a) s as := by
  induction as generalizing s with
  | nil => trivial
  | cons a as ih =>
    refine ⟨⟨h.1, hp a List.mem_cons_self⟩, fun t ht => ?_⟩
    exact ih (h.2 t ht) fun b hb => hp b (List.mem_cons_of_mem _ hb)

theorem run_append {as bs : List ℓ} : run step s (as ++ bs) = (run step s as).bind fun t => run step t bs := by
  induction as generalizing s with
  | nil => rfl
  | cons a as ih =>
    rw [List.cons_append, run, run, bind_assoc]
    exact Option.bind_congr fun t _ => ih

theorem along_append {bs : List ℓ} (h : Along step ok s as) (h' : ∀ t, run step s as = some t → Along step ok t bs) :
    Along step ok s (as ++ bs) := by
  induction as generalizing s with
  | nil => exact h' s rfl
  | cons a as ih =>
    refine ⟨h.1, fun t ht => ih (h.2 t ht) fun u hu => h' u ?_⟩
    rw [run, ht]
    exact hu

theorem run_invariant {I : σ → Prop}
    (hstep : ∀ s a t, I s → ok s a → step s a = some t → I t) {s t : σ}
    (hs : I s) (hok : Along step ok s as) (hr : run step s as = some t) : I t := by
  induction as generalizing s with
  | nil => cases hr; exact hs
  | cons a as ih =>
    obtain ⟨u, hu, hr⟩ := bind_eq_some_iff.1 hr
    exact ih (hstep s a u hs hok.1 hu) (hok.2 u hu) hr

/-- What holds at the end of a run and not at its start comes about in one of its steps. -/
theorem exists_step_of_run {P : σ → Prop} {s t : σ} (hr : run step s as = some t) (hs : ¬ P s) (ht : P t) :
    ∃ pre a post u v, as = pre ++ a :: post ∧ run step s pre = some u ∧ step u a = some v ∧ ¬ P u ∧ P v := by
  induction as generalizing s with
  | nil =>
    cases hr
    exact absurd ht hs
  | cons a as ih =>
    obtain ⟨v, hv, hr⟩ := bind_eq_some_iff.1 hr
    by_cases hP : P v
    · exact ⟨[], a, as, s, v, rfl, rfl, hv, hs, hP⟩
    · obtain ⟨pre, b, post, u, w, rfl, hpre, hw⟩ := ih hr hP
      exact ⟨a :: pre, b, post, u, w, rfl, by rw [run, hv]; exact hpre, hw⟩

/-- What holds wherever a run ends holds at its end. -/
theorem exists_run {o : Option σ} {P : σ → Prop} (h : o.isSome) (hP : ∀ t, o = some t → P t) :
    ∃ t, o = some t ∧ P t :=
  ⟨o.get h, (some_get h).symm, hP _ (some_get h).symm⟩

theorem exists_run_with {β : Type} {o : Option σ} {P : σ → β → Prop} (h : o.isSome)
    (hP : ∀ t, o = some t → ∃ b, P t b) : ∃ t b, o = some t ∧ P t b :=
  have ⟨b, hb⟩ := hP _ (some_get h).symm
  ⟨o.get h, b, (some_get h).symm, hb⟩

/-! ## Folds -/

section Folds

variable {g : σ → ℓ → σ}

/-- A fold is a run of a machine whose steps are all enabled. -/
theorem run_foldl (s : σ) (as : List ℓ) : run (fun s a => some (g s a)) s as = some (as.foldl g s) := by
  induction as generalizing s with
  | nil => rfl
  | cons a as ih => exact ih (g s a)

theorem along_foldl_cons {a : ℓ} :
    Along (fun s a => some (g s a)) ok s (a :: as) ↔ ok s a ∧ Along (fun s a => some (g s a)) ok (g s a) as := by
  rw [along_cons]
  simp

theorem foldl_invariant {I : σ → Prop} (hstep : ∀ s a, I s → ok s a → I (g s a)) {s : σ} {as : List ℓ}
    (hs : I s) (hok : Along (fun s a => some (g s a)) ok s as) : I (as.foldl g s) :=
  run_invariant (fun s a _ hI ha ht => some_inj.1 ht ▸ hstep s a hI ha) hs hok (run_foldl s as)

end Folds

end IniNode.Lib
