import IniNode.Forks.Calls
/-!
# Lineages

In a well-formed tree every node but genesis has a parent one height below, so the lineage of a node goes down to
genesis and the lineage of each of its nodes is the rest of it. Statuses do not matter: functions that change only them
leave the `Shape` of the tree.
-/

open List

namespace IniNode.Forks

/-- The nodes below `n` have their parents below `n`, one height lower, down to height zero. They name them by their
hashes and have no less work. -/
structure Linked (mem : Memory) (n : Ptr) : Prop where
  parent : ∀ p < n, ∀ q, (mem p).parent = some q → q < n ∧ (mem p).height = (mem q).height + 1
  parentHash : ∀ p < n, ∀ q, (mem p).parent = some q → (mem p).parentHash = (mem q).hash
  work : ∀ p < n, ∀ q, (mem p).parent = some q → (mem q).workSum ≤ (mem p).workSum
  root : ∀ p < n, (mem p).parent = none → (mem p).height = 0
  height : ∀ p < n, 0 ≤ (mem p).height

namespace Linked

variable {mem : Memory} {n p q : Ptr}

theorem lineage_some (h : Linked mem n) (hp : p < n) (hq : (mem p).parent = some q) :
    lineage mem p = p :: lineage mem q := by
  obtain ⟨hqn, hheight⟩ := h.parent p hp q hq
  have hnat : (mem p).height.toNat = (mem q).height.toNat + 1 := by
    have := h.height q hqn
    omega
  rw [lineage, hnat, lineageFrom, hq]
  rfl

theorem lineage_none (h : Linked mem n) (hp : p < n) (hq : (mem p).parent = none) : lineage mem p = [p] := by
  rw [lineage, h.root p hp hq]
  rfl

theorem induct (h : Linked mem n) {P : Ptr → Prop} (hroot : ∀ p < n, (mem p).parent = none → P p)
    (hstep : ∀ p < n, ∀ q < n, (mem p).parent = some q → P q → P p) : ∀ p < n, P p := by
  suffices ∀ k : Nat, ∀ p < n, (mem p).height.toNat = k → P p from fun p hp => this _ p hp rfl
  intro k
  induction k with
  | zero =>
    intro p hp hk
    cases hq : (mem p).parent with
    | none => exact hroot p hp hq
    | some q =>
      obtain ⟨hqn, hheight⟩ := h.parent p hp q hq
      have := h.height q hqn
      omega
  | succ k ih =>
    intro p hp hk
    cases hq : (mem p).parent with
    | none => exact hroot p hp hq
    | some q =>
      obtain ⟨hqn, hheight⟩ := h.parent p hp q hq
      exact hstep p hp q hqn hq (ih q hqn (by omega))

section

variable (h : Linked mem n) (hp : p < n)

include h hp

theorem self_mem : p ∈ lineage mem p := by
  cases hq : (mem p).parent with
  | none => rw [h.lineage_none hp hq]; exact mem_singleton_self p
  | some q => rw [h.lineage_some hp hq]; exact mem_cons_self

theorem head?_lineage : (lineage mem p).head? = some p := by
  cases hq : (mem p).parent with
  | none => rw [h.lineage_none hp hq]; rfl
  | some q => rw [h.lineage_some hp hq]; rfl

theorem parent_mem (hq : (mem p).parent = some q) : q ∈ lineage mem p := by
  rw [h.lineage_some hp hq]
  exact mem_cons_of_mem p (h.self_mem (h.parent p hp q hq).1)

/-- What holds of a node and goes from each node to its children holds of every node above it. -/
theorem mem_induct {P : Ptr → Prop} (hq : q ∈ lineage mem p) (hself : q < n → P q)
    (hstep : ∀ p < n, ∀ r, (mem p).parent = some r → P r → P p) : P p := by
  revert hq
  refine h.induct (P := fun p => q ∈ lineage mem p → P p) ?_ ?_ p hp
  · intro p hp hnone hq
    rw [h.lineage_none hp hnone, mem_singleton] at hq
    exact hq ▸ hself (hq ▸ hp)
  · intro p hp r _ hr ih hq
    rw [h.lineage_some hp hr] at hq
    obtain rfl | hq := mem_cons.1 hq
    · exact hself hp
    · exact hstep p hp r hr (ih hq)

theorem suffix (hq : q ∈ lineage mem p) : lineage mem q <:+ lineage mem p := by
  refine h.mem_induct (P := (lineage mem q <:+ lineage mem ·)) hp hq (fun _ => suffix_rfl) fun p hp r hr ih => ?_
  rw [h.lineage_some hp hr]
  exact ih.trans (suffix_cons p _)

theorem subset (hq : q ∈ lineage mem p) : lineage mem q ⊆ lineage mem p :=
  (h.suffix hp hq).subset

theorem lt_of_mem (hq : q ∈ lineage mem p) : q < n :=
  h.mem_induct (P := fun _ => q < n) hp hq id fun _ _ _ _ ih => ih

theorem work_le (hq : q ∈ lineage mem p) : (mem q).workSum ≤ (mem p).workSum :=
  h.mem_induct (P := fun p => (mem q).workSum ≤ (mem p).workSum) hp hq (fun _ => le_refl _) fun p hp r hr ih =>
    ih.trans (h.work p hp r hr)

theorem height_le (hq : q ∈ lineage mem p) : (mem q).height ≤ (mem p).height := by
  refine h.mem_induct (P := fun p => (mem q).height ≤ (mem p).height) hp hq (fun _ => le_refl _)
    fun p hp r hr ih => ?_
  have := (h.parent p hp r hr).2
  omega

theorem eq_or_height_lt (hq : q ∈ lineage mem p) : q = p ∨ (mem q).height < (mem p).height := by
  cases hr : (mem p).parent with
  | none =>
    rw [h.lineage_none hp hr, mem_singleton] at hq
    exact .inl hq
  | some r =>
    rw [h.lineage_some hp hr] at hq
    refine (mem_cons.1 hq).imp_right fun hq => ?_
    obtain ⟨hrn, hheight⟩ := h.parent p hp r hr
    have := h.height_le hrn hq
    omega

theorem nodup : (lineage mem p).Nodup := by
  refine h.induct (P := fun p => (lineage mem p).Nodup) ?_ ?_ p hp
  · intro p hp hnone
    rw [h.lineage_none hp hnone]
    exact nodup_singleton p
  · intro p hp q hqn hq ih
    rw [h.lineage_some hp hq]
    refine nodup_cons.2 ⟨fun hmem => ?_, ih⟩
    have := h.height_le hqn hmem
    have := (h.parent p hp q hq).2
    omega

theorem takeWhile_append (hq : q ∈ lineage mem p) :
    lineage mem p = (lineage mem p).takeWhile (· ≠ q) ++ lineage mem q := by
  have hself {q} (hq : q < n) : lineage mem q = (lineage mem q).takeWhile (· ≠ q) ++ lineage mem q := by
    obtain ⟨rest, hrest⟩ := head?_eq_some_iff.1 (h.head?_lineage hq)
    rw [hrest, takeWhile_cons_of_neg (by simp), nil_append]
  refine h.mem_induct (P := fun p => lineage mem p = (lineage mem p).takeWhile (· ≠ q) ++ lineage mem q)
    hp hq hself fun p hp r hr ih => ?_
  by_cases hpq : p = q
  · exact hpq ▸ hself hp
  · rw [h.lineage_some hp hr, takeWhile_cons_of_pos (by simpa using hpq), cons_append, ← ih]

theorem disjoint_takeWhile (hq : q ∈ lineage mem p) :
    List.Disjoint ((lineage mem p).takeWhile (· ≠ q)) (lineage mem q) := by
  have hnodup := h.nodup hp
  rw [h.takeWhile_append hp hq] at hnodup
  exact disjoint_of_nodup_append hnodup

theorem takeWhile_parent (hq : q ∈ lineage mem p) {r : Ptr} (hr : (mem q).parent = some r) :
    (lineage mem p).takeWhile (· ≠ q) ++ [q] = (lineage mem p).takeWhile (· ≠ r) := by
  have hqn := h.lt_of_mem hp hq
  refine append_cancel_right (?_ : _ ++ lineage mem r = _ ++ lineage mem r)
  rw [← h.takeWhile_append hp (h.subset hp hq (h.parent_mem hqn hr)), append_assoc, singleton_append,
    ← h.lineage_some hqn hr]
  exact (h.takeWhile_append hp hq).symm

theorem mem_of_takeWhile (hq : q ∈ lineage mem p) {a : Ptr}
    (ha : a ∈ (lineage mem p).takeWhile (· ≠ q)) : q ∈ lineage mem a ∧ a ≠ q := by
  have hap : a ∈ lineage mem p := (takeWhile_sublist _).subset ha
  have hne : a ≠ q := by simpa using mem_takeWhile_imp ha
  refine ⟨?_, hne⟩
  obtain hs | hs := suffix_or_suffix_of_suffix (h.suffix hp hq) (h.suffix hp hap)
  · exact hs.subset (h.self_mem (h.lt_of_mem hp hq))
  · -- otherwise the node would stand both above and below the cut
    have hbelow : a ∈ lineage mem q := hs.subset (h.self_mem (h.lt_of_mem hp hap))
    exact absurd hbelow (h.disjoint_takeWhile hp hq ha)

theorem isChain_lineage : (lineage mem p).IsChain fun a b => (mem a).parent = some b := by
  refine h.induct (P := fun p => (lineage mem p).IsChain fun a b => (mem a).parent = some b) ?_ ?_ p hp
  · intro p hp hnone
    rw [h.lineage_none hp hnone]
    exact .singleton p
  · intro p hp q hqn hq ih
    rw [h.lineage_some hp hq]
    refine ih.cons fun r hr => ?_
    rw [h.head?_lineage hqn] at hr
    cases hr
    exact hq

theorem isChain_takeWhile (hq : q ∈ lineage mem p) :
    ((lineage mem p).takeWhile (· ≠ q) ++ [q]).IsChain (fun a b => (mem a).parent = some b) ∧
      ((lineage mem p).takeWhile (· ≠ q) ++ [q]).head? = some p := by
  obtain ⟨rest, hrest⟩ := head?_eq_some_iff.1 (h.head?_lineage (h.lt_of_mem hp hq))
  have heq : (lineage mem p).takeWhile (· ≠ q) ++ [q] ++ rest = lineage mem p := by
    rw [append_assoc, singleton_append, ← hrest]
    exact (h.takeWhile_append hp hq).symm
  refine ⟨?_, ?_⟩
  · exact List.IsChain.prefix (h.isChain_lineage hp) ⟨rest, heq⟩
  · rw [← head?_append_of_ne_nil _ (by simp), heq]
    exact h.head?_lineage hp

end

theorem lineage_congr (h : Linked mem n) {mem' : Memory}
    (hmem : ∀ p < n, (mem' p).parent = (mem p).parent ∧ (mem' p).height = (mem p).height) (hp : p < n) :
    lineage mem' p = lineage mem p := by
  have hfrom : ∀ k, ∀ p < n, lineageFrom mem' k p = lineageFrom mem k p := by
    intro k
    induction k with
    | zero => intro p _; rfl
    | succ k ih =>
      intro p hp
      simp only [lineageFrom, (hmem p hp).1]
      cases hq : (mem p).parent with
      | none => rfl
      | some q => exact congrArg (p :: ·) (ih q (h.parent p hp q hq).1)
  rw [lineage, lineage, (hmem p hp).2, hfrom _ p hp]

theorem filter_height (h : Linked mem n) (hp : p < n) (hq : q ∈ lineage mem p) :
    ((lineage mem p).filter fun a => (mem q).height < (mem a).height) = (lineage mem p).takeWhile (· ≠ q) := by
  have hqn := h.lt_of_mem hp hq
  nth_rewrite 1 [h.takeWhile_append hp hq]
  rw [filter_append, filter_eq_self.2, filter_eq_nil_iff.2, append_nil]
  · intro a ha
    obtain rfl | hlt := h.eq_or_height_lt hqn ha
    · simp
    · simpa using hlt.le
  · intro a ha
    obtain ⟨hqa, hne⟩ := h.mem_of_takeWhile hp hq ha
    have han := h.lt_of_mem hp ((takeWhile_sublist _).subset ha)
    simpa using (h.eq_or_height_lt han hqa).resolve_left hne.symm

end Linked

/-! ## Changes of statuses -/

theorem lineage_congr {m m' : Memory} (hparent : ∀ p, (m p).parent = (m' p).parent)
    (hheight : ∀ p, (m p).height = (m' p).height) (p : Ptr) : lineage m p = lineage m' p := by
  have hfrom : ∀ n p, lineageFrom m n p = lineageFrom m' n p := by
    intro n
    induction n with
    | zero => intro p; rfl
    | succ n ih =>
      intro p
      simp only [lineageFrom, hparent]
      cases (m' p).parent with
      | none => rfl
      | some q => exact congrArg (p :: ·) (ih q)
  rw [lineage, lineage, hheight, hfrom]

/-- The trees have the same nodes, up to their statuses, and the same index. -/
structure Shape (t u : Tree) : Prop where
  node : ∀ p, u.mem p = { t.mem p with status := u.status p }
  fresh : u.fresh = t.fresh
  index : u.index = t.index

namespace Shape

variable {t u v : Tree}

theorem refl (t : Tree) : Shape t t := ⟨fun _ => rfl, rfl, rfl⟩

variable (h : Shape t u)

include h

theorem trans (h' : Shape u v) : Shape t v := by
  refine ⟨fun p => ?_, h'.fresh.trans h.fresh, h'.index.trans h.index⟩
  rw [h'.node p, h.node p]

variable (p : Ptr)

theorem parent : (u.mem p).parent = (t.mem p).parent := by rw [h.node p]

theorem height : (u.mem p).height = (t.mem p).height := by rw [h.node p]

theorem parentHash : (u.mem p).parentHash = (t.mem p).parentHash := by rw [h.node p]

theorem hash : u.hash p = t.hash p := by rw [Tree.hash, h.node p]; rfl

theorem work : u.work p = t.work p := by rw [Tree.work, h.node p]; rfl

theorem lookupNode (x : Hash) : u.lookupNode x = t.lookupNode x := by
  rw [Tree.lookupNode, h.index, Tree.lookupNode]

theorem lineage : lineage u.mem p = lineage t.mem p := lineage_congr h.parent h.height p

theorem bestChain (hbest : u.best = t.best) : u.bestChain = t.bestChain := by
  rw [Tree.bestChain, hbest, h.lineage, Tree.bestChain]

theorem linked (hl : Linked t.mem t.fresh) : Linked u.mem u.fresh := by
  rw [h.fresh]
  refine ⟨fun p hp q hq => ?_, fun p hp q hq => ?_, fun p hp q hq => ?_, fun p hp hq => ?_, fun p hp => ?_⟩
  · rw [h.height, h.height]
    exact hl.parent p hp q (h.parent p ▸ hq)
  · rw [h.parentHash, ← Tree.hash, h.hash]
    exact hl.parentHash p hp q (h.parent p ▸ hq)
  · rw [← Tree.work, ← Tree.work, h.work, h.work]
    exact hl.work p hp q (h.parent p ▸ hq)
  · rw [h.height]
    exact hl.root p hp (h.parent p ▸ hq)
  · rw [h.height]
    exact hl.height p hp

end Shape

/-- The status has no invalid flag that the other does not have. -/
structure NoWorse (a b : BlockStatus) : Prop where
  validateFailed : a.validateFailed = true → b.validateFailed = true
  invalidAncestor : a.invalidAncestor = true → b.invalidAncestor = true

namespace NoWorse

variable {a b c flags : BlockStatus}

theorem refl (a : BlockStatus) : NoWorse a a := ⟨id, id⟩

theorem trans (h : NoWorse a b) (h' : NoWorse b c) : NoWorse a c :=
  ⟨h'.validateFailed ∘ h.validateFailed, h'.invalidAncestor ∘ h.invalidAncestor⟩

theorem knownInvalid (h : NoWorse a b) (ha : a.knownInvalid = true) : b.knownInvalid = true := by
  simp only [BlockStatus.knownInvalid, Bool.or_eq_true] at ha ⊢
  exact ha.imp h.validateFailed h.invalidAncestor

theorem unmarked (h : NoWorse a b) (hb : b.knownInvalid = false) : a.knownInvalid = false := by
  cases ha : a.knownInvalid with
  | false => rfl
  | true => exact absurd (h.knownInvalid ha) (by simp [hb])

theorem not_validateFailed (h : NoWorse a b) : b.validateFailed = false → a.validateFailed = false := by
  simpa using mt h.validateFailed

theorem not_invalidAncestor (h : NoWorse a b) : b.invalidAncestor = false → a.invalidAncestor = false := by
  simpa using mt h.invalidAncestor

theorem unset : NoWorse (a.unset flags) a := by
  constructor <;> simp only [BlockStatus.unset, Bool.and_eq_true] <;> exact And.left

theorem set (hflags : flags.knownInvalid = false) : NoWorse (a.set flags) a := by
  simp only [BlockStatus.knownInvalid, Bool.or_eq_false_iff] at hflags
  constructor <;> simp [BlockStatus.set, hflags]

end NoWorse

/-- The statuses change, and only nodes in `S` get invalid flags. -/
structure Relabel (S : Ptr → Prop) (t u : Tree) : Prop extends Shape t u where
  header : u.header = t.header
  bodies : u.bodies = t.bodies
  flags : ∀ p, NoWorse (u.status p) (t.status p) ∨ S p

/-- No node gets a mark. -/
abbrev Clears (t u : Tree) : Prop := Relabel (fun _ => False) t u

namespace Relabel

variable {S S' : Ptr → Prop} {t u v : Tree}

theorem refl (t : Tree) : Relabel S t t := ⟨Shape.refl t, rfl, rfl, fun _ => .inl (NoWorse.refl _)⟩

theorem trans (h : Relabel S t u) (h' : Relabel S u v) : Relabel S t v := by
  refine ⟨h.toShape.trans h'.toShape, h'.header.trans h.header, h'.bodies.trans h.bodies, fun p => ?_⟩
  obtain hp' | hp' := h'.flags p
  · exact (h.flags p).imp_left hp'.trans
  · exact .inr hp'

theorem mono (h : Relabel S t u) (hS : ∀ p, S p → S' p) : Relabel S' t u :=
  ⟨h.toShape, h.header, h.bodies, fun p => (h.flags p).imp_right (hS p)⟩

theorem of_clears (h : Clears t u) : Relabel S t u := h.mono nofun

theorem noWorse (h : Clears t u) (p : Ptr) : NoWorse (u.status p) (t.status p) := (h.flags p).resolve_right id

theorem marks (h : Relabel S t u) {p : Ptr} (hp : u.marked p = true) : t.marked p = true ∨ S p :=
  (h.flags p).imp_left fun hle => hle.knownInvalid hp

theorem unmarked (h : Relabel S t u) {p : Ptr} (hp : t.marked p = false) (hS : ¬ S p) : u.marked p = false :=
  ((h.flags p).resolve_right hS).unmarked hp

theorem putStatus {p : Ptr} {status : BlockStatus} (h : NoWorse status (t.status p) ∨ S p) :
    Relabel S t (t.putStatus p status) := by
  refine ⟨⟨fun q => ?_, rfl, rfl⟩, rfl, rfl, fun q => ?_⟩
  · by_cases hqp : q = p
    · rw [hqp]
      simp [Tree.putStatus, Tree.status]
    · simp [Tree.putStatus, Tree.status, Function.update_of_ne hqp]
  · by_cases hqp : q = p
    · rw [hqp]
      simpa [Tree.putStatus, Tree.status] using h
    · simp only [Tree.putStatus, Tree.status, Function.update_of_ne hqp]
      exact .inl (NoWorse.refl _)

theorem flushToDB : Clears t t.flushToDB := by
  unfold Tree.flushToDB
  split
  · exact refl t
  · exact ⟨⟨fun _ => rfl, rfl, rfl⟩, rfl, rfl, fun _ => .inl (NoWorse.refl _)⟩

theorem setBest (n : Ptr) : Clears t (t.setBest n) :=
  ⟨⟨flushToDB.node, flushToDB.fresh, flushToDB.index⟩, flushToDB.header, flushToDB.bodies, flushToDB.flags⟩

theorem unsetStatusFlags (p : Ptr) (flags : BlockStatus) : Clears t (t.unsetStatusFlags p flags) :=
  putStatus (.inl NoWorse.unset)

theorem setStatusFlags (p : Ptr) {flags : BlockStatus} (hflags : flags.knownInvalid = false) :
    Clears t (t.setStatusFlags p flags) := putStatus (.inl (NoWorse.set hflags))

theorem setInvalid (p : Ptr) (flags : BlockStatus) : Relabel (· = p) t (t.setStatusFlags p flags) :=
  putStatus (.inr rfl)

variable {g : Tree → Ptr → Tree}

theorem foldl (hg : ∀ t p, Relabel (· = p) t (g t p)) (ps : List Ptr) (t : Tree) :
    Relabel (· ∈ ps) t (ps.foldl g t) := by
  induction ps generalizing t with
  | nil => exact refl t
  | cons p ps ih =>
    apply trans ((hg t p).mono _) ((ih (g t p)).mono _)
    · rintro q rfl
      exact mem_cons_self
    · intro q hq
      exact mem_cons_of_mem p hq

theorem foldl_clears (hg : ∀ t p, Clears t (g t p)) (ps : List Ptr) (t : Tree) : Clears t (ps.foldl g t) := by
  induction ps generalizing t with
  | nil => exact refl t
  | cons p ps ih => exact (hg t p).trans (ih (g t p))

theorem markInvalidAncestor (t : Tree) (p : Ptr) : Relabel (· = p) t (t.markInvalidAncestor p) := setInvalid p _

theorem invalidateDescendant (t : Tree) (p : Ptr) : Relabel (· = p) t (t.invalidateDescendant p) := by
  unfold Tree.invalidateDescendant
  split
  · exact refl t
  · exact (markInvalidAncestor t p).trans (of_clears (unsetStatusFlags p _))

end Relabel

end IniNode.Forks
