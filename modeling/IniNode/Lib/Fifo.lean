import Mathlib
/-!
# A channel with several consumers

Items are sent into a fifo channel. Each consumer takes items from its front into a list of its own and at some
point flushes that list, which applies the items it keeps and discards the others. Every item carries the number
of its sending.

A consumer that only ever flushes when the others hold nothing older (`Before`) keeps the items applied in the
order they were sent, each once (`Ordered.isPrefix`); once everything has been taken and flushed, all of them are
applied (`Ordered.applied_eq_sent`).
-/

open List Function

namespace IniNode.Lib

/-- A strictly sorted list that is closed downwards in another one is a prefix of it. -/
theorem isPrefix_of_downClosed {α : Type} {r : α → α → Prop} (hr : ∀ x y, r x y → ¬ r y x) {a l : List α}
    (ha : a.Pairwise r) (hl : l.Pairwise r) (hsub : ∀ x ∈ a, x ∈ l)
    (hdown : ∀ x ∈ a, ∀ y ∈ l, r y x → y ∈ a) : a <+: l := by
  induction l generalizing a with
  | nil => exact eq_nil_iff_forall_not_mem.2 (fun x hx => by cases hsub x hx) ▸ nil_prefix
  | cons y l ih =>
    cases a with
    | nil => exact nil_prefix
    | cons x a =>
      obtain ⟨hxa, ha'⟩ := pairwise_cons.1 ha
      obtain ⟨hyl, hl'⟩ := pairwise_cons.1 hl
      have hxy : x = y := by
        rcases mem_cons.1 (hsub x mem_cons_self) with h | h
        · exact h
        · have hyx := hyl x h
          rcases mem_cons.1 (hdown x mem_cons_self y mem_cons_self hyx) with h' | h'
          · exact h'.symm
          · exact absurd (hxa y h') (hr y x hyx)
      subst hxy
      refine cons_prefix_cons.2 ⟨rfl, ih ha' hl' (fun z hz => ?_) (fun z hz w hw hwz => ?_)⟩
      · rcases mem_cons.1 (hsub z (mem_cons_of_mem _ hz)) with h | h
        · exact absurd (h ▸ hxa z hz) (fun h' => hr _ _ h' h')
        · exact h
      · rcases mem_cons.1 (hdown z (mem_cons_of_mem _ hz) w (mem_cons_of_mem _ hw) hwz) with h | h
        · exact absurd (h ▸ hyl w hw) (fun h' => hr _ _ h' h')
        · exact h

/-- The channel, what each consumer holds, and the history: everything sent and not discarded, everything
applied, and everything that left the queue without being applied. -/
structure Fifo (α ω : Type) where
  items : List (Nat × α)
  held : ω → List (Nat × α)
  next : Nat
  sent : List (Nat × α)
  applied : List (Nat × α)
  lost : List (Nat × α)

namespace Fifo

variable {α ω : Type}

def empty : Fifo α ω := ⟨[], fun _ => [], 0, [], [], []⟩

variable (s : Fifo α ω)

def send (a : α) : Fifo α ω :=
  { s with items := s.items ++ [(s.next, a)], next := s.next + 1, sent := s.sent ++ [(s.next, a)] }

/-- Items that are discarded on purpose no longer count as sent. -/
def discard (ts : List (Nat × α)) : Fifo α ω :=
  { s with sent := s.sent.filter fun t => t.1 ∉ ts.map Prod.fst, lost := s.lost ++ ts }

/-- What a consumer applies when it flushes. -/
def batch (w : ω) (keep : α → Bool) : List (Nat × α) := (s.held w).filter (keep ·.2)

/-- Not applied and not lost. -/
def Outstanding (t : Nat × α) : Prop := t ∈ s.items ∨ ∃ w, t ∈ s.held w

/-- The others hold nothing that was sent before what the consumer would apply. -/
def Before (w : ω) (keep : α → Bool) : Prop :=
  ∀ t ∈ s.batch w keep, ∀ w', w' ≠ w → ∀ u ∈ s.held w', t.1 < u.1

/-- The channel and every consumer's list are in sending order, what is held is older than what is in the
channel, and no two consumers hold the same item. -/
structure Wired (s : Fifo α ω) : Prop where
  items : s.items.Pairwise fun t u => t.1 < u.1
  held : ∀ w, (s.held w).Pairwise fun t u => t.1 < u.1
  held_lt : ∀ w, ∀ t ∈ s.held w, ∀ u ∈ s.items, t.1 < u.1
  apart : ∀ w w', w ≠ w' → ∀ t ∈ s.held w, ∀ u ∈ s.held w', t.1 ≠ u.1
  lt_next : ∀ t, s.Outstanding t → t.1 < s.next

/-- What was sent is applied or outstanding, and everything applied is older than everything outstanding. -/
structure Ordered (s : Fifo α ω) : Prop extends Wired s where
  sent_lt : ∀ t ∈ s.sent, t.1 < s.next
  sent : s.sent.Pairwise fun t u => t.1 < u.1
  applied : s.applied.Pairwise fun t u => t.1 < u.1
  mem_sent : ∀ t, t ∈ s.sent ↔ t ∈ s.applied ∨ s.Outstanding t
  applied_lt : ∀ t ∈ s.applied, ∀ u, s.Outstanding u → t.1 < u.1

section Static
variable {s : Fifo α ω} {w : ω} {keep : α → Bool} {t u : Nat × α} {a : α}

theorem mem_batch : t ∈ s.batch w keep ↔ t ∈ s.held w ∧ keep t.2 = true := mem_filter

theorem outstanding_send : (s.send a).Outstanding t ↔ s.Outstanding t ∨ t = (s.next, a) := by
  simp only [Outstanding, send, mem_append, mem_singleton]
  tauto

theorem wired_empty : (empty : Fifo α ω).Wired :=
  ⟨.nil, fun _ => .nil, by simp [empty], by simp [empty], by simp [empty, Outstanding]⟩

theorem ordered_empty : (empty : Fifo α ω).Ordered :=
  ⟨wired_empty, by simp [empty], .nil, .nil, by simp [empty, Outstanding], by simp [empty]⟩

theorem Wired.send (h : s.Wired) (a : α) : (s.send a).Wired where
  items := pairwise_append.2 ⟨h.items, pairwise_singleton _ _,
    fun t ht => forall_mem_singleton.2 (h.lt_next t (.inl ht))⟩
  held := h.held
  held_lt w t ht := forall_mem_append.2 ⟨h.held_lt w t ht, forall_mem_singleton.2 (h.lt_next t (.inr ⟨w, ht⟩))⟩
  apart := h.apart
  lt_next := by
    intro t ht
    rcases outstanding_send.1 ht with ht | rfl
    · exact Nat.lt_succ_of_lt (h.lt_next t ht)
    · exact Nat.lt_succ_self _

theorem Ordered.send (h : s.Ordered) (a : α) : (s.send a).Ordered where
  toWired := h.toWired.send a
  sent_lt := forall_mem_append.2 ⟨fun t ht => Nat.lt_succ_of_lt (h.sent_lt t ht),
    forall_mem_singleton.2 (Nat.lt_succ_self _)⟩
  sent := pairwise_append.2 ⟨h.sent, pairwise_singleton _ _, fun t ht => forall_mem_singleton.2 (h.sent_lt t ht)⟩
  applied := h.applied
  mem_sent := by
    intro t
    rw [outstanding_send]
    change t ∈ s.sent ++ [(s.next, a)] ↔ _
    rw [mem_append, mem_singleton, h.mem_sent, or_assoc]
    rfl
  applied_lt := by
    intro t ht u hu
    rcases outstanding_send.1 hu with hu | rfl
    · exact h.applied_lt t ht u hu
    · exact h.sent_lt t ((h.mem_sent t).2 (.inl ht))

theorem Ordered.isPrefix (h : s.Ordered) : s.applied <+: s.sent := by
  refine isPrefix_of_downClosed (fun t u htu hut => absurd htu (Nat.lt_asymm hut)) h.applied h.sent
    (fun t ht => (h.mem_sent t).2 (.inl ht)) fun t ht u hu hut => ?_
  rcases (h.mem_sent u).1 hu with hu | hu
  · exact hu
  · exact absurd (h.applied_lt t ht u hu) (Nat.lt_asymm hut)

theorem Ordered.applied_eq_sent (h : s.Ordered) (hnone : ∀ t, ¬ s.Outstanding t) : s.applied = s.sent := by
  obtain ⟨rest, hrest⟩ := h.isPrefix
  have hnodup : s.sent.Pairwise fun t u => t.1 < u.1 := h.sent
  cases rest with
  | nil => simpa using hrest
  | cons t rest =>
    -- the next item in order would have to be applied already
    rw [← hrest] at hnodup
    have ht : t ∈ s.applied := ((h.mem_sent t).1 (by rw [← hrest]; simp)).resolve_right (hnone t)
    exact absurd ((pairwise_append.1 hnodup).2.2 t ht t mem_cons_self) (Nat.lt_irrefl _)

end Static

/-! ## Taking and flushing -/

section Consumers
variable [DecidableEq ω] {s s' : Fifo α ω} {w : ω} {keep : α → Bool} {t u : Nat × α} {items : List (Nat × α)}

/-- The first item of the channel goes to a consumer. -/
def hold (s : Fifo α ω) (w : ω) (t : Nat × α) (items : List (Nat × α)) : Fifo α ω :=
  { s with items := items, held := update s.held w (s.held w ++ [t]) }

/-- A consumer takes the first item of the channel, and holds or discards it. -/
def take (s : Fifo α ω) (w : ω) (keep : α → Bool) : Option (Fifo α ω) :=
  match s.items with
  | [] => none
  | t :: items => some (if keep t.2 then s.hold w t items else { s with items := items }.discard [t])

/-- A consumer flushes: it applies what it keeps, or loses it when `ok` is false, and discards the rest. -/
def flush (s : Fifo α ω) (w : ω) (keep : α → Bool) (ok : Bool) : Fifo α ω :=
  let s' := { s.discard ((s.held w).filter (!keep ·.2)) with held := update s.held w [] }
  if ok then { s' with applied := s.applied ++ s.batch w keep } else { s' with lost := s'.lost ++ s.batch w keep }

theorem take_cases (h : s.take w keep = some s') :
    ∃ t items, s.items = t :: items ∧ (s' = s.hold w t items ∨ s' = { s with items := items }.discard [t]) := by
  unfold take at h
  split at h
  · cases h
  next t items hi =>
    refine ⟨t, items, hi, ?_⟩
    split at h
    · exact .inl (Option.some.inj h).symm
    · exact .inr (Option.some.inj h).symm

theorem mem_hold {w' : ω} : u ∈ (s.hold w t items).held w' ↔ u ∈ s.held w' ∨ w' = w ∧ u = t := by
  change u ∈ update s.held w (s.held w ++ [t]) w' ↔ _
  by_cases hw : w' = w
  · subst hw
    simp
  · simp [hw]

theorem mem_flush_held {ok : Bool} {w' : ω} : u ∈ (s.flush w keep ok).held w' ↔ w' ≠ w ∧ u ∈ s.held w' := by
  have hheld : (s.flush w keep ok).held = update s.held w [] := by cases ok <;> rfl
  rw [hheld]
  by_cases hw : w' = w
  · subst hw
    simp
  · simp [hw]

theorem flush_items (ok : Bool) : (s.flush w keep ok).items = s.items := by cases ok <;> rfl

theorem flush_next (ok : Bool) : (s.flush w keep ok).next = s.next := by cases ok <;> rfl

theorem outstanding_hold (hi : s.items = t :: items) : (s.hold w t items).Outstanding u ↔ s.Outstanding u := by
  simp only [Outstanding, mem_hold, hi, mem_cons]
  constructor
  · rintro (h | ⟨w', h | ⟨-, h⟩⟩)
    · exact .inl (.inr h)
    · exact .inr ⟨w', h⟩
    · exact .inl (.inl h)
  · rintro ((h | h) | ⟨w', h⟩)
    · exact .inr ⟨w, .inr ⟨rfl, h⟩⟩
    · exact .inl h
    · exact .inr ⟨w', .inl h⟩

theorem outstanding_of_flush {ok : Bool} (h : (s.flush w keep ok).Outstanding u) : s.Outstanding u := by
  rcases h with h | ⟨w', h⟩
  · rw [flush_items] at h
    exact .inl h
  · exact .inr ⟨w', (mem_flush_held.1 h).2⟩

theorem Wired.hold (h : s.Wired) (hi : s.items = t :: items) : (s.hold w t items).Wired := by
  have hitems := h.items
  rw [hi, pairwise_cons] at hitems
  have ht : ∀ w', ∀ u ∈ s.held w', u.1 < t.1 := fun w' u hu => h.held_lt w' u hu t (by simp [hi])
  refine ⟨hitems.2, fun w' => ?_, fun w' u hu v hv => ?_, fun w1 w2 hne u hu v hv => ?_, fun u hu => ?_⟩
  · change (update s.held w (s.held w ++ [t]) w').Pairwise _
    by_cases hw : w' = w
    · subst hw
      rw [update_self]
      exact pairwise_append.2 ⟨h.held w', pairwise_singleton _ _, fun u hu v hv =>
        mem_singleton.1 hv ▸ ht w' u hu⟩
    · rw [update_of_ne hw]
      exact h.held w'
  · rcases mem_hold.1 hu with hu | ⟨-, rfl⟩
    · exact h.held_lt w' u hu v (by rw [hi]; exact mem_cons_of_mem _ hv)
    · exact hitems.1 v hv
  · rcases mem_hold.1 hu with hu' | ⟨hw1, hut⟩ <;> rcases mem_hold.1 hv with hv' | ⟨hw2, hvt⟩
    · exact h.apart w1 w2 hne u hu' v hv'
    · exact hvt ▸ Nat.ne_of_lt (ht w1 u hu')
    · exact hut ▸ Nat.ne_of_gt (ht w2 v hv')
    · exact absurd (hw1.trans hw2.symm) hne
  · exact h.lt_next u ((outstanding_hold hi).1 hu)

omit [DecidableEq ω] in
theorem Wired.tail (h : s.Wired) (hi : s.items = t :: items) : ({ s with items := items }.discard [t]).Wired := by
  have hitems := h.items
  rw [hi, pairwise_cons] at hitems
  refine ⟨hitems.2, h.held, fun w u hu v hv => h.held_lt w u hu v (by rw [hi]; exact mem_cons_of_mem _ hv), h.apart,
    fun u hu => h.lt_next u ?_⟩
  exact hu.imp_left fun hu => by rw [hi]; exact mem_cons_of_mem _ hu

theorem Wired.take (h : s.Wired) (hs : s.take w keep = some s') : s'.Wired := by
  obtain ⟨t, items, hi, rfl | rfl⟩ := take_cases hs
  · exact h.hold hi
  · exact h.tail hi

theorem Wired.flush (h : s.Wired) (ok : Bool) : (s.flush w keep ok).Wired := by
  have hheld : (s.flush w keep ok).held = update s.held w [] := by cases ok <;> rfl
  refine ⟨?_, fun w' => ?_, fun w' u hu v hv => ?_, fun w1 w2 hne u hu v hv => ?_, fun u hu => ?_⟩
  · rw [flush_items]
    exact h.items
  · rw [hheld]
    by_cases hw : w' = w
    · subst hw
      rw [update_self]
      exact .nil
    · rw [update_of_ne hw]
      exact h.held w'
  · rw [flush_items] at hv
    exact h.held_lt w' u (mem_flush_held.1 hu).2 v hv
  · exact h.apart w1 w2 hne u (mem_flush_held.1 hu).2 v (mem_flush_held.1 hv).2
  · rw [flush_next]
    exact h.lt_next u (outstanding_of_flush hu)

theorem Ordered.take (h : s.Ordered) (hs : s.take w keep = some s') : s'.Ordered := by
  obtain ⟨t, items, hi, rfl | rfl⟩ := take_cases hs
  · refine ⟨h.toWired.hold hi, h.sent_lt, h.sent, h.applied, fun u => ?_, fun u hu v hv => ?_⟩
    · rw [outstanding_hold hi]
      exact h.mem_sent u
    · exact h.applied_lt u hu v ((outstanding_hold hi).1 hv)
  · have ht : s.Outstanding t := .inl (by simp [hi])
    have hitems := h.items
    rw [hi, pairwise_cons] at hitems
    have hout : ∀ u, ({ s with items := items }.discard [t]).Outstanding u → s.Outstanding u ∧ u.1 ≠ t.1 := by
      rintro u (hu | ⟨w', hu⟩)
      · exact ⟨.inl (by rw [hi]; exact mem_cons_of_mem _ hu), Nat.ne_of_gt (hitems.1 u hu)⟩
      · exact ⟨.inr ⟨w', hu⟩, Nat.ne_of_lt (h.held_lt w' u hu t (by simp [hi]))⟩
    refine ⟨h.toWired.tail hi, fun u hu => h.sent_lt u (mem_filter.1 hu).1, h.sent.sublist filter_sublist,
      h.applied, fun u => ⟨fun hu => ?_, fun hu => mem_filter.2 ?_⟩,
      fun u hu v hv => h.applied_lt u hu v (hout v hv).1⟩
    · obtain ⟨hsent, hne⟩ := mem_filter.1 hu
      rcases (h.mem_sent u).1 hsent with hu | hu | hu
      · exact .inl hu
      · rw [hi] at hu
        rcases mem_cons.1 hu with rfl | hu
        · simp at hne
        · exact .inr (.inl hu)
      · exact .inr (.inr hu)
    · rcases hu with hu | hu
      · exact ⟨(h.mem_sent u).2 (.inl hu), by simpa using Nat.ne_of_lt (h.applied_lt u hu t ht)⟩
      · exact ⟨(h.mem_sent u).2 (.inr (hout u hu).1), by simpa using (hout u hu).2⟩

theorem Ordered.flush (h : s.Ordered) (hb : s.Before w keep) : (s.flush w keep true).Ordered := by
  have hout : ∀ u, (s.flush w keep true).Outstanding u → s.Outstanding u ∧ u ∉ s.held w ∧ ∀ t ∈ s.held w,
      u.1 ≠ t.1 := by
    rintro u (hu | ⟨w', hu⟩)
    · have hne : ∀ t ∈ s.held w, u.1 ≠ t.1 := fun t ht => Nat.ne_of_gt (h.held_lt w t ht u hu)
      exact ⟨.inl hu, fun hm => hne u hm rfl, hne⟩
    · obtain ⟨hw, hu⟩ := mem_flush_held.1 hu
      have hne : ∀ t ∈ s.held w, u.1 ≠ t.1 := fun t ht => h.apart w' w hw u hu t ht
      exact ⟨.inr ⟨w', hu⟩, fun hm => hne u hm rfl, hne⟩
  have hkey : ∀ t ∈ s.held w, ∀ u ∈ s.held w, t.1 = u.1 → t = u := fun t ht u hu =>
    inj_on_of_nodup_map (pairwise_map.2 ((h.held w).imp fun h => Nat.ne_of_lt h)) ht hu
  refine ⟨h.toWired.flush true, fun u hu => h.sent_lt u (mem_filter.1 hu).1, h.sent.sublist filter_sublist,
    ?_, fun u => ⟨fun hu => ?_, fun hu => mem_filter.2 ?_⟩, fun u hu v hv => ?_⟩
  · exact pairwise_append.2 ⟨h.applied, (h.held w).sublist filter_sublist, fun u hu v hv =>
      h.applied_lt u hu v (.inr ⟨w, (mem_batch.1 hv).1⟩)⟩
  · obtain ⟨hsent, hne⟩ := mem_filter.1 hu
    rcases (h.mem_sent u).1 hsent with happ | hitem | ⟨w', hheld⟩
    · exact .inl (mem_append_left _ happ)
    · exact .inr (.inl hitem)
    · by_cases hw : w' = w
      · -- it was held by the consumer, and not among those it discards
        rw [hw] at hheld
        refine .inl (mem_append_right _ (mem_batch.2 ⟨hheld, ?_⟩))
        by_contra hk
        refine absurd hne ?_
        simp only [decide_eq_true_eq, not_not]
        exact List.mem_map_of_mem (mem_filter.2 ⟨hheld, by simpa using hk⟩)
      · exact .inr (.inr ⟨w', mem_flush_held.2 ⟨hw, hheld⟩⟩)
  · have hnot : (∀ t ∈ s.held w, keep t.2 = false → u.1 ≠ t.1) →
        decide (u.1 ∉ ((s.held w).filter (!keep ·.2)).map Prod.fst) = true := by
      intro hne
      simp only [decide_eq_true_eq]
      intro hm
      obtain ⟨t, ht, heq⟩ := List.mem_map.1 hm
      obtain ⟨ht, hk⟩ := mem_filter.1 ht
      exact hne t ht (by simpa using hk) heq.symm
    rcases hu with hu | hu
    · rcases mem_append.1 hu with hu | hu
      · exact ⟨(h.mem_sent u).2 (.inl hu), hnot fun t ht _ => Nat.ne_of_lt (h.applied_lt u hu t (.inr ⟨w, ht⟩))⟩
      · obtain ⟨hu, hk⟩ := mem_batch.1 hu
        refine ⟨(h.mem_sent u).2 (.inr (.inr ⟨w, hu⟩)), hnot fun t ht hk' heq => ?_⟩
        rw [hkey u hu t ht heq, hk'] at hk
        cases hk
    · exact ⟨(h.mem_sent u).2 (.inr (hout u hu).1), hnot fun t ht _ => (hout u hu).2.2 t ht⟩
  · rcases mem_append.1 hu with hu | hu
    · exact h.applied_lt u hu v (hout v hv).1
    · rcases hv with hv | ⟨w', hv⟩
      · exact h.held_lt w u (mem_batch.1 hu).1 v hv
      · obtain ⟨hw, hv⟩ := mem_flush_held.1 hv
        exact hb u hu w' hw v hv

end Consumers

end Fifo

end IniNode.Lib
