import IniNode.Lib.Store
/-!
# Ledgers: keys created once and spent at most once

A ledger keeps the live keys with their values and, in `origin`, every value ever created. It is
changed by events: a live key is spent, or a key that was never created is created. Along valid
events nothing is created twice, so what a key was created with never changes, and a list of
events can be undone from the ledger it leaves: `live_before` gives the live keys before the events
from those after them.
-/

open List Option

namespace IniNode.Lib

variable {κ ν : Type} [DecidableEq κ]

/-- A key is spent or created. -/
inductive Event (κ ν : Type) where
  | spend (k : κ)
  | create (k : κ) (v : ν)
deriving DecidableEq

def Event.key : Event κ ν → κ
  | .spend k => k
  | .create k _ => k

/-- What an event does to the live keys. -/
def Event.toWrite : Event κ ν → Write κ ν
  | .spend k => ⟨k, none⟩
  | .create k v => ⟨k, some v⟩

/-- A live key has the value it was created with. -/
structure Ledger (κ ν : Type) where
  live : Store κ ν
  origin : Store κ ν
  live_origin : ∀ k v, live k = some v → origin k = some v

namespace Ledger

def empty : Ledger κ ν := ⟨fun _ => none, fun _ => none, by simp⟩

variable (l : Ledger κ ν)

def step : Event κ ν → Ledger κ ν
  | .spend k =>
    { live := l.live.write ⟨k, none⟩
      origin := l.origin
      live_origin := by
        intro k' v h
        rw [Store.write_apply] at h
        split at h
        · cases h
        · exact l.live_origin k' v h }
  | .create k v =>
    { live := l.live.write ⟨k, some v⟩
      origin := l.origin.write ⟨k, some v⟩
      live_origin := by
        intro k' v' h
        simp only [Store.write_apply] at h ⊢
        split at h
        next hk => rw [if_pos hk, h]
        next hk => rw [if_neg hk, l.live_origin k' v' h] }

def run (es : List (Event κ ν)) : Ledger κ ν := es.foldl step l

/-- The event is valid: it spends a live key, or creates a key for the first time. -/
def Allows : Event κ ν → Prop
  | .spend k => (l.live k).isSome
  | .create k _ => l.origin k = none

instance (l : Ledger κ ν) (e : Event κ ν) : Decidable (l.Allows e) := by
  cases e <;> dsimp only [Allows] <;> infer_instance

/-- Every event is allowed when it comes. -/
def Valid (l : Ledger κ ν) : List (Event κ ν) → Prop
  | [] => True
  | e :: es => l.Allows e ∧ (l.step e).Valid es

instance decidableValid : (l : Ledger κ ν) → (es : List (Event κ ν)) → Decidable (l.Valid es)
  | _, [] => isTrue trivial
  | l, e :: es =>
    have := decidableValid (l.step e) es
    inferInstanceAs (Decidable (_ ∧ _))

/-- The values the events spend, in order. -/
def spentValues (l : Ledger κ ν) : List (Event κ ν) → List ν
  | [] => []
  | .spend k :: es => (l.live k).toList ++ (l.step (.spend k)).spentValues es
  | .create k v :: es => (l.step (.create k v)).spentValues es

variable {l : Ledger κ ν} {e : Event κ ν} {es es' : List (Event κ ν)} {k : κ} {v : ν}

section

variable (l : Ledger κ ν)

@[simp] theorem step_spend_live (k k' : κ) :
    (l.step (.spend k)).live k' = if k' = k then none else l.live k' := Store.write_apply _ _ _

@[simp] theorem step_create_live (k k' : κ) (v : ν) :
    (l.step (.create k v)).live k' = if k' = k then some v else l.live k' := Store.write_apply _ _ _

@[simp] theorem step_spend_origin (k : κ) : (l.step (.spend k)).origin = l.origin := rfl

@[simp] theorem step_create_origin (k k' : κ) (v : ν) :
    (l.step (.create k v)).origin k' = if k' = k then some v else l.origin k' := Store.write_apply _ _ _

@[simp] theorem run_nil : l.run [] = l := rfl

@[simp] theorem run_cons (e : Event κ ν) (es : List (Event κ ν)) :
    l.run (e :: es) = (l.step e).run es := rfl

theorem run_append (es es' : List (Event κ ν)) :
    l.run (es ++ es') = (l.run es).run es' := foldl_append

end

theorem valid_append : l.Valid (es ++ es') ↔ l.Valid es ∧ (l.run es).Valid es' := by
  induction es generalizing l with
  | nil => simp [Valid]
  | cons e es ih => simp [Valid, ih, and_assoc]

theorem spentValues_append (l : Ledger κ ν) (es es' : List (Event κ ν)) :
    l.spentValues (es ++ es') = l.spentValues es ++ (l.run es).spentValues es' := by
  induction es generalizing l with
  | nil => rfl
  | cons e es ih => cases e <;> simp [spentValues, ih]

/-! ## What an event leaves alone -/

theorem step_live_ne (h : k ≠ e.key) : (l.step e).live k = l.live k := by
  cases e <;> simp_all [Event.key]

theorem step_origin_ne (h : k ≠ e.key) : (l.step e).origin k = l.origin k := by
  cases e <;> simp_all [Event.key]

theorem run_live_untouched (h : k ∉ es.map Event.key) : (l.run es).live k = l.live k := by
  induction es generalizing l with
  | nil => rfl
  | cons e es ih =>
    simp only [map_cons, mem_cons, not_or] at h
    rw [run_cons, ih h.2, step_live_ne h.1]

/-! ## A value is created once -/

theorem origin_run_cases (h : (l.run es).origin k = some v) : l.origin k = some v ∨ .create k v ∈ es := by
  induction es generalizing l with
  | nil => exact .inl h
  | cons e es ih =>
    rcases ih h with h | h
    · cases e with
      | spend k' => exact .inl h
      | create k' v' =>
        rw [step_create_origin] at h
        split at h
        next hk => cases h; subst hk; exact .inr mem_cons_self
        next => exact .inl h
    · exact .inr (mem_cons_of_mem _ h)

theorem Valid.origin_stable (hv : l.Valid es) (h : l.origin k = some v) : (l.run es).origin k = some v := by
  induction es generalizing l with
  | nil => exact h
  | cons e es ih =>
    refine ih hv.2 ?_
    cases e with
    | spend k' => exact h
    | create k' v' =>
      rw [step_create_origin, if_neg ?_]
      · exact h
      · rintro rfl
        cases h.symm.trans hv.1

/-- A key that was created before is not created again, so only a spend can change it. -/
theorem Valid.live_of_spent_before (hv : l.Valid es) (ho : l.origin k = some v) (h : l.live k = none) :
    (l.run es).live k = none := by
  induction es generalizing l with
  | nil => exact h
  | cons e es ih =>
    cases e with
    | spend k' =>
      refine ih hv.2 ho ?_
      rw [step_spend_live]; split <;> simp [h]
    | create k' v' =>
      have hne : k ≠ k' := by
        rintro rfl
        cases ho.symm.trans hv.1
      refine ih hv.2 ?_ ?_
      · rw [step_create_origin, if_neg hne, ho]
      · rw [step_create_live, if_neg hne, h]

theorem Valid.live_of_spend_mem (hv : l.Valid es) (h : .spend k ∈ es) : (l.run es).live k = none := by
  induction es generalizing l with
  | nil => cases h
  | cons e es ih =>
    rcases mem_cons.1 h with rfl | h
    · obtain ⟨v, hlive⟩ := isSome_iff_exists.1 hv.1
      exact hv.2.live_of_spent_before (l.live_origin k v hlive) (by simp)
    · exact ih hv.2 h

theorem Valid.origin_of_create_mem (hv : l.Valid es) (h : .create k v ∈ es) : (l.run es).origin k = some v := by
  induction es generalizing l with
  | nil => cases h
  | cons e es ih =>
    rcases mem_cons.1 h with rfl | h
    · exact hv.2.origin_stable (by simp)
    · exact ih hv.2 h

theorem Valid.origin_none_of_create_mem (hv : l.Valid es) (h : .create k v ∈ es) : l.origin k = none := by
  induction es generalizing l with
  | nil => cases h
  | cons e es ih =>
    rcases mem_cons.1 h with rfl | h
    · exact hv.1
    · have := ih hv.2 h
      cases e with
      | spend k' => exact this
      | create k' v' =>
        rw [step_create_origin] at this
        split at this
        · cases this
        · exact this

omit [DecidableEq κ] in
theorem live_none_of_origin_none (h : l.origin k = none) : l.live k = none := by
  cases hl : l.live k with
  | none => rfl
  | some v => cases (l.live_origin k v hl).symm.trans h

theorem Valid.live_of_create_mem (hv : l.Valid es) (h : .create k v ∈ es) (hs : .spend k ∉ es) :
    (l.run es).live k = some v := by
  induction es generalizing l with
  | nil => cases h
  | cons e es ih =>
    simp only [mem_cons, not_or] at hs
    rcases mem_cons.1 h with rfl | h
    · rw [run_cons, run_live_untouched]
      · simp
      · intro hk
        obtain ⟨e, he, hek⟩ := List.mem_map.1 hk
        cases e with
        | spend k' => exact hs.2 (by cases hek; exact he)
        | create k' v' =>
          have := hv.2.origin_none_of_create_mem (show .create k v' ∈ es from hek ▸ he)
          simp at this
    · exact ih hv.2 h hs.2

/-- A key the events spend but do not create was live before them, with the value it still has as
its origin. -/
theorem Valid.live_of_spend_only (hv : l.Valid es) (h : .spend k ∈ es) (hc : ∀ v, .create k v ∉ es) :
    ∃ v, l.live k = some v ∧ (l.run es).origin k = some v := by
  induction es generalizing l with
  | nil => cases h
  | cons e es ih =>
    rcases mem_cons.1 h with rfl | h
    · obtain ⟨v, hlive⟩ := isSome_iff_exists.1 hv.1
      exact ⟨v, hlive, hv.2.origin_stable (l.live_origin k v hlive)⟩
    · obtain ⟨v, hlive, ho⟩ := ih hv.2 h fun v hm => hc v (mem_cons_of_mem _ hm)
      refine ⟨v, ?_, ho⟩
      cases e with
      | spend k' =>
        rw [step_spend_live] at hlive
        split at hlive
        · cases hlive
        · exact hlive
      | create k' v' =>
        have hne : k ≠ k' := by rintro rfl; exact hc v' mem_cons_self
        rwa [step_create_live, if_neg hne] at hlive

/-- A key the events are about, and that is not live before them, was never created before them. -/
theorem Valid.origin_none_of_mem (hv : l.Valid es) (he : e ∈ es) (hl : l.live e.key = none) : l.origin e.key = none := by
  cases e with
  | create k v => exact hv.origin_none_of_create_mem he
  | spend k =>
    by_cases hc : ∃ v, .create k v ∈ es
    · obtain ⟨v, hc⟩ := hc
      exact hv.origin_none_of_create_mem hc
    · obtain ⟨v, hlive, -⟩ := hv.live_of_spend_only he (not_exists.1 hc)
      cases hl.symm.trans hlive

theorem Valid.spentValues_spends {ks : List κ} (hv : l.Valid (ks.map .spend)) :
    (l.spentValues (ks.map .spend)).length = ks.length ∧
      ∀ p ∈ ks.zip (l.spentValues (ks.map .spend)), l.live p.1 = some p.2 := by
  induction ks generalizing l with
  | nil => simp [spentValues]
  | cons k ks ih =>
    obtain ⟨v, hlive⟩ := isSome_iff_exists.1 hv.1
    obtain ⟨hlen, hval⟩ := ih hv.2
    simp only [map_cons, spentValues, hlive, toList_some, singleton_append, length_cons,
      zip_cons_cons, mem_cons, forall_eq_or_imp]
    refine ⟨by omega, trivial, fun p hp => ?_⟩
    have := hval p hp
    rw [step_spend_live] at this
    split at this
    · cases this
    · exact this

/-! ## Undoing events -/

/-- The live keys before the events: what they created was not live, what they only spent was live
with its origin, and every other key is as it is after them. -/
theorem Valid.live_before (hv : l.Valid es) (k : κ) : ((∃ v, .create k v ∈ es) → l.live k = none) ∧
    ((∀ v, .create k v ∉ es) → .spend k ∈ es → l.live k = (l.run es).origin k) ∧
    ((∀ v, .create k v ∉ es) → .spend k ∉ es → l.live k = (l.run es).live k) := by
  refine ⟨?_, ?_, ?_⟩
  · rintro ⟨v, h⟩
    exact live_none_of_origin_none (hv.origin_none_of_create_mem h)
  · intro hc hs
    obtain ⟨v, hl, ho⟩ := hv.live_of_spend_only hs hc
    rw [hl, ho]
  · intro hc hs
    refine (run_live_untouched fun hk => ?_).symm
    obtain ⟨e, he, hek⟩ := List.mem_map.1 hk
    cases e with
    | spend k' => cases hek; exact hs he
    | create k' v => cases hek; exact hc v he

end Ledger

end IniNode.Lib
