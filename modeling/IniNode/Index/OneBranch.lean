import IniNode.Index.BlockIndex
import IniNode.Index.Views
import IniNode.Lib.Run
/-!
# A view and its branch

A chain view by itself, among the nodes of a block tree whose parent links come and go: evictions cut them, repairs put
them back. `setTip` walks down the links until it is in place. A walk that ends at a cut link leaves the slots below as
they were, so it keeps the view on one branch only if the slot below holds the block before (`Lands`).
-/

open IniNode.Lib List Function

namespace IniNode

/-- The links lead to the block before. -/
def Memory.Linked (mem : Memory) : Prop :=
  ∀ {p q}, (mem p).parent = some q → (mem q).hash = (mem p).parentHash ∧ (mem q).height + 1 = (mem p).height

namespace ChainView

variable {mem : Memory} {c : ChainView}

/-- Every node is in the slot of its height. -/
def AtHeight (mem : Memory) (base : Int) (nodes : List (Option Ptr)) : Prop :=
  ∀ {i : Nat} {p}, nodes[i]? = some (some p) → (mem p).height = base + i

/-- The node in a slot is the block before the one in the next. -/
def Follows (mem : Memory) (nodes : List (Option Ptr)) (i : Nat) : Prop :=
  ∀ p q, nodes[i]? = some (some p) → nodes[i + 1]? = some (some q) → (mem q).parentHash = (mem p).hash

/-- The view is part of one branch. -/
structure OneBranch (mem : Memory) (c : ChainView) : Prop where
  height : AtHeight mem c.base c.nodes
  follows : ∀ i, Follows mem c.nodes i

/-- The walk of `setTip` from the node comes to a node that is in its slot or below the view, or to a cut link over a slot
that is free or holds the block before. -/
inductive Lands (mem : Memory) (c : ChainView) : Ptr → Prop
  | under {p} (hp : (mem p).height < c.base) : Lands mem c p
  | inPlace {p} (hp : c.nodes[((mem p).height - c.base).toNat]? = some (some p)) : Lands mem c p
  | cut {p} (hp : (mem p).parent = none)
    (hslot : ∀ q, c.nodeByHeight ((mem p).height - 1) = some q → (mem p).parentHash = (mem q).hash) : Lands mem c p
  | link {p q} (hp : (mem p).parent = some q) (hq : Lands mem c q) : Lands mem c p

/-- The slots above the walk are done, and the one above its node has the node's child. -/
structure Above (mem : Memory) (c : ChainView) (p : Ptr) (i : Nat) (nodes : List (Option Ptr)) : Prop where
  height : AtHeight mem c.base nodes
  old : ∀ {j q}, j ≤ i → (nodes[j]? = some (some q) ↔ c.nodes[j]? = some (some q))
  child : ∀ {q}, nodes[i + 1]? = some (some q) → (mem q).parentHash = (mem p).hash
  follows : ∀ {j}, i < j → Follows mem nodes j

variable {p : Ptr} {nodes : List (Option Ptr)}

theorem follows_of_old (hc : c.OneBranch mem) {i : Nat}
    (hold : ∀ {j q}, j ≤ i → (nodes[j]? = some (some q) ↔ c.nodes[j]? = some (some q))) {j : Nat}
    (hj : j + 1 ≤ i) : Follows mem nodes j := by
  intro p q hp hq
  exact hc.follows j p q ((hold (by omega)).1 hp) ((hold hj).1 hq)

theorem Above.oneBranch_of_inPlace (hc : c.OneBranch mem) {i : Nat}
    (h : Above mem c p i nodes) (hin : nodes[i]? = some (some p)) : OneBranch mem ⟨nodes, c.base⟩ := by
  refine ⟨h.height, fun j => ?_⟩
  rcases Nat.lt_trichotomy j i with hlt | rfl | hgt
  · exact follows_of_old hc h.old hlt
  · intro q r hq hr
    obtain rfl := Option.some.inj (Option.some.inj (hin.symm.trans hq))
    exact h.child hr
  · exact h.follows hgt

theorem Above.set {i : Nat} (h : Above mem c p i nodes)
    (hi : (mem p).height = c.base + i) (hlen : i < nodes.length) :
    AtHeight mem c.base (nodes.set i (some p)) ∧ ∀ {j}, i ≤ j → Follows mem (nodes.set i (some p)) j := by
  refine ⟨fun {j q} hq => ?_, fun {j} hj q r hq hr => ?_⟩
  · by_cases hji : j = i
    · subst hji
      rw [getElem?_set_self hlen] at hq
      rw [← Option.some.inj (Option.some.inj hq)]
      exact hi
    · rw [getElem?_set_ne (Ne.symm hji)] at hq
      exact h.height hq
  · rw [getElem?_set_ne (by omega)] at hr
    by_cases hji : j = i
    · subst hji
      rw [getElem?_set_self hlen] at hq
      rw [← Option.some.inj (Option.some.inj hq)]
      exact h.child hr
    · rw [getElem?_set_ne (by omega)] at hq
      exact h.follows (by omega) q r hq hr

/-- Where the walk lands, the view is on the branch of the node it started from. -/
theorem Lands.place (hlinked : mem.Linked) (hc : c.OneBranch mem) (hp : c.Lands mem p) {fuel i : Nat}
    (hi : (mem p).height = c.base + i) (hfuel : i < fuel) (hlen : i < nodes.length)
    (h : Above mem c p i nodes) : OneBranch mem ⟨ChainView.place mem c.base fuel (some p) nodes, c.base⟩ := by
  induction hp generalizing fuel i nodes with
  | under hlow => omega
  | @inPlace p hin =>
    obtain ⟨fuel, rfl⟩ : ∃ n, fuel = n + 1 := ⟨fuel - 1, by omega⟩
    rw [show ((mem p).height - c.base).toNat = i by omega] at hin
    have hin := (h.old (Nat.le_refl i)).2 hin
    rw [place_succ hi, if_pos hin]
    exact h.oneBranch_of_inPlace hc hin
  | @cut p hparent hslot =>
    obtain ⟨fuel, rfl⟩ : ∃ n, fuel = n + 1 := ⟨fuel - 1, by omega⟩
    rw [place_succ hi]
    split
    next hin => exact h.oneBranch_of_inPlace hc hin
    next =>
      rw [hparent, place_stop (by simp)]
      obtain ⟨hheight, hfollows⟩ := h.set hi hlen
      refine ⟨hheight, fun j => ?_⟩
      by_cases hj : i ≤ j
      · exact hfollows hj
      -- below the node are the slots of the old view, and the first of them holds the block before
      · intro q r hq hr
        rw [getElem?_set_ne (by omega)] at hq
        have hq := (h.old (by omega)).1 hq
        by_cases hji : j + 1 = i
        · rw [hji, getElem?_set_self hlen] at hr
          rw [← Option.some.inj (Option.some.inj hr)]
          refine hslot q (nodeByHeight_eq_some.2 ⟨by omega, ?_⟩)
          rwa [show ((mem p).height - 1 - c.base).toNat = j by omega]
        · rw [getElem?_set_ne (by omega)] at hr
          exact hc.follows j q r hq ((h.old (by omega)).1 hr)
  | @link p q hparent hq ih =>
    obtain ⟨fuel, rfl⟩ : ∃ n, fuel = n + 1 := ⟨fuel - 1, by omega⟩
    obtain ⟨hhash, hheight⟩ := hlinked hparent
    obtain ⟨hat, hfollows⟩ := h.set hi hlen
    rw [place_succ hi]
    split
    next hin => exact h.oneBranch_of_inPlace hc hin
    next =>
      rw [hparent]
      rcases Nat.eq_zero_or_pos i with rfl | hpos
      · -- the parent is below the view
        rw [place_stop]
        · exact ⟨hat, fun j => hfollows (Nat.zero_le j)⟩
        · rintro t ⟨⟩
          exact .inl (by dsimp only; omega)
      · refine @ih _ fuel (i - 1) (by omega) (by omega) (by rw [length_set]; omega) ⟨hat, ?_, ?_, ?_⟩
        · intro j r hj
          rw [getElem?_set_ne (by omega)]
          exact h.old (by omega)
        · intro r hr
          rw [Nat.sub_add_cancel hpos, getElem?_set_self hlen] at hr
          rw [← Option.some.inj (Option.some.inj hr)]
          exact hhash.symm
        · exact fun hj => hfollows (by omega)

theorem OneBranch.setTip (hlinked : mem.Linked) (hc : c.OneBranch mem) (hp : c.Lands mem p) :
    (c.setTip mem (some p)).OneBranch mem := by
  by_cases hlow : (mem p).height < c.base
  · rwa [ChainView.setTip, if_pos hlow]
  · obtain ⟨i, hi⟩ : ∃ i : Nat, (mem p).height = c.base + i := ⟨((mem p).height - c.base).toNat, by omega⟩
    rw [setTip_eq hi]
    have hlen := length_resized c.nodes i
    have hnone : ∀ {j}, i < j → ((c.nodes ++ replicate (i + 1) none).take (i + 1))[j]? = none :=
      fun hj => getElem?_eq_none (by omega)
    refine hp.place hlinked hc hi (Nat.lt_succ_self i) (by omega)
      ⟨fun {j q} hq => ?_, getElem?_resized, fun {q} hq => ?_, fun {j} hj q r hq _ => ?_⟩
    · by_cases hj : j ≤ i
      · exact hc.height ((getElem?_resized hj).1 hq)
      · rw [hnone (by omega)] at hq
        cases hq
    · rw [hnone (Nat.lt_succ_self i)] at hq
      cases hq
    · rw [hnone hj] at hq
      cases hq

theorem OneBranch.nil (mem : Memory) (base : Int) : OneBranch mem ⟨[], base⟩ :=
  ⟨fun h => by simp at h, fun i _ _ h => by simp at h⟩

theorem OneBranch.pruneBelow (hc : c.OneBranch mem) (h : Int) : (c.pruneBelow h).OneBranch mem := by
  unfold ChainView.pruneBelow
  split
  · exact hc
  · refine ⟨fun {i p} hp => ?_, fun i p q hp hq => ?_⟩
    · rw [getElem?_drop] at hp
      have := hc.height hp
      dsimp only
      omega
    · rw [getElem?_drop] at hp hq
      exact hc.follows _ p q hp hq

theorem OneBranch.congr {mem' : Memory} (hc : c.OneBranch mem) (hheight : ∀ p, (mem' p).height = (mem p).height)
    (hhash : ∀ p, (mem' p).hash = (mem p).hash) (hparent : ∀ p, (mem' p).parentHash = (mem p).parentHash) :
    c.OneBranch mem' := by
  refine ⟨fun hp => ?_, fun i p q hp hq => ?_⟩
  · rw [hheight]
    exact hc.height hp
  · rw [hparent, hhash]
    exact hc.follows i p q hp hq

end ChainView

/-! ## Runs -/

/-- A view and the nodes it is about. -/
structure ViewState where
  mem : Memory
  view : ChainView

inductive ViewStep where
  | setTip (node : Option Ptr)
  | pruneBelow (height : Int)
  /-- An eviction cuts the links of a node. -/
  | sever (node : Ptr)
  | link (node parent : Ptr)

namespace ViewState

open ChainView BlockIndex

variable {s s' : ViewState}

def step (s : ViewState) : ViewStep → Option ViewState
  | .setTip node => some { s with view := s.view.setTip s.mem node }
  | .pruneBelow height => some ⟨severAnchor s.mem (s.view.anchor height), s.view.pruneBelow height⟩
  | .sever node => some { s with mem := s.mem.sever node }
  | .link node parent =>
    if (s.mem parent).hash = (s.mem node).parentHash ∧ (s.mem parent).height + 1 = (s.mem node).height then
      some { s with mem := update s.mem node { s.mem node with parent := some parent } }
    else none

/-- The walk of `setTip` has to end where the view goes on with the block before. -/
def Joins (s : ViewState) : ViewStep → Prop
  | .setTip (some p) => s.view.Lands s.mem p
  | _ => True

/-- The nodes are those of a tree, and the view is one branch of it. -/
structure Sound (s : ViewState) : Prop where
  linked : s.mem.Linked
  branch : s.view.OneBranch s.mem

theorem Sound.relink (h : s.Sound) {mem : Memory} (hheight : ∀ p, (mem p).height = (s.mem p).height)
    (hhash : ∀ p, (mem p).hash = (s.mem p).hash) (hparent : ∀ p, (mem p).parentHash = (s.mem p).parentHash)
    (hlink : ∀ {p q}, (mem p).parent = some q → (s.mem p).parent = some q ∨
      (s.mem q).hash = (s.mem p).parentHash ∧ (s.mem q).height + 1 = (s.mem p).height) : Sound { s with mem } where
  linked := by
    intro p q hq
    rw [hhash, hparent, hheight, hheight]
    exact (hlink hq).elim (fun h' => h.linked h') id
  branch := h.branch.congr hheight hhash hparent

theorem sound_severAnchor (h : s.Sound) (a : Option Ptr) : Sound { s with mem := severAnchor s.mem a } := by
  have hdata : ∀ p, severAnchor s.mem a p = { s.mem p with
      parent := (severAnchor s.mem a p).parent, ancestor := (severAnchor s.mem a p).ancestor } := severAnchor_data s.mem a
  refine h.relink (fun p => ?_) (fun p => ?_) (fun p => ?_) fun {p q} hq => .inl ?_
  · rw [hdata]
  · rw [hdata]
  · rw [hdata]
  · rw [severAnchor_parent] at hq
    split at hq
    · cases hq
    · exact hq

theorem Sound.step (h : s.Sound) {a : ViewStep} (hok : s.Joins a) (hstep : s.step a = some s') : s'.Sound := by
  cases a with
  | setTip node =>
    cases hstep
    cases node with
    | none => exact ⟨h.linked, OneBranch.nil _ _⟩
    | some p => exact ⟨h.linked, h.branch.setTip h.linked hok⟩
  | pruneBelow height =>
    cases hstep
    have hcut := sound_severAnchor h (s.view.anchor height)
    exact ⟨hcut.linked, hcut.branch.pruneBelow height⟩
  | sever node =>
    cases hstep
    exact sound_severAnchor h (some node)
  | link node parent =>
    obtain ⟨hblock, hs'⟩ := Option.ite_none_right_eq_some.1 hstep
    cases hs'
    refine h.relink (fun p => ?_) (fun p => ?_) (fun p => ?_) fun {p q} hq => ?_
    · rw [update_apply]
      split <;> simp_all
    · rw [update_apply]
      split <;> simp_all
    · rw [update_apply]
      split <;> simp_all
    · rw [update_apply] at hq
      split at hq
      next hp =>
        cases hq
        exact .inr (hp ▸ hblock)
      next => exact .inl hq

/-- Along any calls of which every new tip's walk ends where the view goes on with the block before, every filled slot has
a node of its height, and the node of the slot below, if there is one, is the block before. -/
theorem view_is_one_branch {as : List ViewStep} (hlinked : s.mem.Linked) (hempty : s.view = {})
    (hok : Along step Joins s as) (hrun : run step s as = some s') {i : Nat} {q : Ptr}
    (hq : s'.view.nodes[i]? = some (some q)) : (s'.mem q).height = s'.view.base + i ∧
      ∀ j p, i = j + 1 → s'.view.nodes[j]? = some (some p) → (s'.mem q).parentHash = (s'.mem p).hash := by
  have hstart : s.Sound := ⟨hlinked, by rw [hempty]; exact OneBranch.nil _ _⟩
  have h : s'.Sound := run_invariant (I := Sound) (fun t a t' ht hjoins hstep => ht.step hjoins hstep) hstart hok hrun
  refine ⟨h.branch.height hq, ?_⟩
  rintro j p rfl hp
  exact h.branch.follows j p q hp hq

/-- Genesis, with a branch of two blocks at 1 and 2 and another at 3 and 4. -/
def fork : Memory
  | 0 => ⟨none, none, 1, headerOn 0 0, 0, 0, {}⟩
  | 1 => ⟨some 0, none, 2, headerOn 1 1, 0, 1, {}⟩
  | 2 => ⟨some 1, none, 3, headerOn 2 2, 0, 2, {}⟩
  | 3 => ⟨some 0, none, 4, headerOn 1 3, 0, 1, {}⟩
  | 4 => ⟨some 3, none, 5, headerOn 4 4, 0, 2, {}⟩
  | n => ⟨none, none, n + 1, headerOn 0 n, 0, 0, {}⟩

theorem linked_fork : fork.Linked := by
  intro p q hq
  match p with
  | 0 => cases hq
  | 1 | 2 | 3 | 4 =>
    cases hq
    exact ⟨rfl, rfl⟩
  | n + 5 => cases hq

theorem view_is_one_branch_switched : ∃ s',
    run step ⟨fork, {}⟩ [.setTip (some 2), .setTip (some 4), .pruneBelow 1] = some s' ∧
    s'.view.nodes = [some 3, some 4] ∧ (s'.mem 4).height = s'.view.base + 1 ∧
    (s'.mem 4).parentHash = (s'.mem 3).hash := by
  refine exists_run rfl fun s' hrun => ?_
  have hnodes : s'.view.nodes = [some 3, some 4] := by cases hrun; rfl
  have hview := view_is_one_branch linked_fork rfl ?_ hrun (i := 1) (q := 4) (by rw [hnodes]; rfl)
  · exact ⟨hnodes, hview.1, hview.2 0 3 rfl (by rw [hnodes]; rfl)⟩
  · refine ⟨.link rfl (.link rfl (.cut rfl fun q hq => by cases hq)), fun t ht => ?_⟩
    cases ht
    exact ⟨.link rfl (.link rfl (.inPlace rfl)), fun t ht => ⟨trivial, fun _ _ => trivial⟩⟩

/-- The same switch with the link of the new tip cut. -/
theorem view_mixes_branches : ∃ s', run step ⟨fork, {}⟩ [.setTip (some 2), .sever 4, .setTip (some 4)] = some s' ∧
    s'.view.nodes[1]? = some (some 1) ∧ s'.view.nodes[2]? = some (some 4) ∧ (s'.mem 4).parentHash ≠ (s'.mem 1).hash :=
  ⟨_, rfl, rfl, rfl, by decide⟩

end ViewState

end IniNode
