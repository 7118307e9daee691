import IniNode.Index.Node
import IniNode.Lib.Links
/-!
# The skip list of the block index

Every node but genesis has a pointer to an ancestor some way down. `Ancestor` jumps along these pointers, and finds the
node that a walk over the parents finds.
-/

open IniNode.Lib Function

namespace IniNode

/-- Trees that `newBlockNode` builds, at any addresses, with links that stay. -/
inductive Grown (blockHash : BlockHeader → Hash) : List Ptr → Memory → Prop
  | genesis (mem : Memory) (header : BlockHeader) (p : Ptr) :
    Grown blockHash [p] (update mem p (initBlockNode mem blockHash header none))
  | newBlockNode {nodes : List Ptr} {mem : Memory} (h : Grown blockHash nodes mem) (header : BlockHeader) {p q : Ptr}
    (hq : q ∈ nodes) (hp : p ∉ nodes) :
    Grown blockHash (p :: nodes) (update mem p (initBlockNode mem blockHash header (some q)))

/-- The node that so many parent links lead to. -/
def Memory.walk (mem : Memory) (n : Nat) (p : Ptr) : Option Ptr := hop (fun q => (mem q).parent) n (some p)

/-- Genesis, or a node above its parent with a pointer to where a walk to the skip height stops. -/
inductive SkipLinked (nodes : List Ptr) (mem : Memory) (n : BlockNode) : Prop
  | genesis (height : n.height = 0) (parent : n.parent = none) (ancestor : n.ancestor = none)
  | child {q : Ptr} (hq : q ∈ nodes) (parent : n.parent = some q) (height : n.height = (mem q).height + 1)
    (skips : 0 ≤ getAncestorHeight n.height ∧ getAncestorHeight n.height ≤ (mem q).height)
    (ancestor : n.ancestor = mem.walk ((mem q).height - getAncestorHeight n.height).toNat q)

variable {blockHash : BlockHeader → Hash} {nodes : List Ptr} {mem : Memory} {p q : Ptr} {k : Int}

theorem getAncestorHeight_bounds {h : Int} (hpos : 0 ≤ h) :
    0 ≤ getAncestorHeight (h + 1) ∧ getAncestorHeight (h + 1) ≤ h := by
  have hlow (n : Nat) : invertLowestOne n ≤ n - 1 := Nat.and_le_right
  have := hlow (h + 1).toNat
  have := hlow (invertLowestOne (h + 1).toNat)
  unfold getAncestorHeight
  omega

section
variable (h : ∀ p ∈ nodes, SkipLinked nodes mem (mem p))
include h

theorem walk_spec {n : Nat} (hp : p ∈ nodes) (hn : (n : Int) ≤ (mem p).height) :
    ∃ q ∈ nodes, mem.walk n p = some q ∧ (mem q).height = (mem p).height - n := by
  induction n generalizing p with
  | zero => exact ⟨p, hp, rfl, by simp⟩
  | succ n ih =>
    cases h p hp with
    | genesis height => omega
    | @child r hr parent height =>
      obtain ⟨q, hq, hwalk, hheight⟩ := ih hr (by omega)
      refine ⟨q, hq, ?_, by omega⟩
      rw [Memory.walk, hop_succ, parent]
      exact hwalk

theorem ancestorFrom_eq {fuel : Nat} (hp : p ∈ nodes) (h0 : 0 ≤ k) (hk : k ≤ (mem p).height)
    (hfuel : (mem p).height - k ≤ fuel) : ancestorFrom mem k fuel (some p) = mem.walk ((mem p).height - k).toNat p := by
  induction fuel generalizing p with
  | zero =>
    have heq : (mem p).height = k := by omega
    rw [ancestorFrom, if_pos heq, heq, Int.sub_self]
    rfl
  | succ fuel ih =>
    rw [ancestorFrom]
    split
    next heq => rw [heq, Int.sub_self]; rfl
    next hne =>
      cases h p hp with
      | genesis height => omega
      | @child q hq parent height skips ancestor =>
        have hstep : mem.walk ((mem p).height - k).toNat p = mem.walk ((mem q).height - k).toNat q := by
          rw [Memory.walk, show ((mem p).height - k).toNat = ((mem q).height - k).toNat + 1 by omega, hop_succ, parent]
          rfl
        split
        next hskip =>
          -- the pointer stands where a walk to the skip height stops, and the walk goes on from there
          obtain ⟨r, hr, hwalk, hheight⟩ := walk_spec h hq
            (n := ((mem q).height - getAncestorHeight (mem p).height).toNat) (by omega)
          rw [ancestor, hwalk, ih hr (by omega) (by omega), hstep]
          rw [Memory.walk, ← hwalk, Memory.walk, ← hop_add]
          congr 1
          omega
        next => rw [parent, ih hq (by omega) (by omega), hstep]

theorem ancestor_eq (hp : p ∈ nodes) (h0 : 0 ≤ k) (hk : k ≤ (mem p).height) :
    ancestor mem p k = mem.walk ((mem p).height - k).toNat p := by
  rw [ancestor, if_neg (by omega), ancestorFrom_eq h hp h0 hk (by omega)]

theorem walk_update {n : BlockNode} (hp : p ∉ nodes) (hq : q ∈ nodes) (i : Nat) :
    Memory.walk (update mem p n) i q = mem.walk i q := by
  induction i generalizing q with
  | zero => rfl
  | succ i ih =>
    rw [Memory.walk, Memory.walk, hop_succ, hop_succ, update_of_ne (by grind)]
    cases h q hq with
    | genesis height parent => rw [parent, hop_none, hop_none]
    | child hr parent => rw [parent]; exact ih hr

theorem SkipLinked.update {n n' : BlockNode} (hn : SkipLinked nodes mem n) (hp : p ∉ nodes) :
    SkipLinked (p :: nodes) (update mem p n') n := by
  cases hn with
  | genesis height parent ancestor => exact .genesis height parent ancestor
  | @child q hq parent height skips ancestor =>
    have hold : Function.update mem p n' q = mem q := update_of_ne (by grind) ..
    refine .child (q := q) (by simp [hq]) parent (by rwa [hold]) (by rwa [hold]) ?_
    rw [ancestor, hold, walk_update h hp hq]

end

theorem SkipLinked.nonneg {n : BlockNode} (h : SkipLinked nodes mem n) : 0 ≤ n.height := by
  cases h <;> omega

theorem Grown.linked (h : Grown blockHash nodes mem) : ∀ p ∈ nodes, SkipLinked nodes mem (mem p) := by
  induction h with
  | genesis mem header p =>
    simp only [List.mem_singleton, forall_eq, update_self]
    exact .genesis rfl rfl rfl
  | @newBlockNode nodes mem h header p q hq hp ih =>
    have hskips := getAncestorHeight_bounds (ih q hq).nonneg
    have hnew : SkipLinked nodes mem (initBlockNode mem blockHash header (some q)) :=
      .child hq rfl rfl hskips (ancestor_eq ih hq hskips.1 hskips.2)
    intro r hr
    rcases List.mem_cons.1 hr with rfl | hr
    · rw [update_self]
      exact hnew.update ih hp
    · rw [update_of_ne (by grind)]
      exact (ih r hr).update ih hp

/-- `Ancestor` finds the node that a walk over the parents finds. The pointer of every node but genesis is at the skip
height of the node. -/
theorem ancestor_eq_walk (h : Grown blockHash nodes mem) :
    (∀ p ∈ nodes, ∀ k, 0 ≤ k → k ≤ (mem p).height →
      ancestor mem p k = mem.walk ((mem p).height - k).toNat p) ∧
      ∀ p ∈ nodes, if (mem p).parent = none then (mem p).ancestor = none
        else ∃ q ∈ nodes, (mem p).ancestor = some q ∧ (mem q).height = getAncestorHeight (mem p).height := by
  refine ⟨fun p hp k h0 hk => ancestor_eq h.linked hp h0 hk, fun p hp => ?_⟩
  cases h.linked p hp with
  | genesis height parent ancestor => rwa [if_pos parent]
  | @child q hq parent height skips ancestor =>
    obtain ⟨r, hr, hwalk, hheight⟩ := walk_spec h.linked hq
      (n := ((mem q).height - getAncestorHeight (mem p).height).toNat) (by omega)
    rw [if_neg (by simp [parent])]
    exact ⟨r, hr, ancestor.trans hwalk, by omega⟩

/-- Four blocks on genesis: the pointer of the last one leads to genesis, which `Ancestor` reaches in one step. -/
theorem ancestor_eq_walk_skip : ∃ nodes mem, Grown nonceParams.blockHash nodes mem ∧ 4 ∈ nodes ∧
    (mem 4).height = 4 ∧ (mem 4).ancestor = some 0 ∧ ancestor mem 4 0 = mem.walk 4 4 := by
  have h : Grown nonceParams.blockHash [0] _ :=
    .genesis (fun _ => ⟨none, none, 0, headerOn 0 0, 0, 0, {}⟩) (headerOn 0 0) 0
  have h := h.newBlockNode (headerOn 1 1) (p := 1) (q := 0) (by simp) (by simp)
  have h := h.newBlockNode (headerOn 2 2) (p := 2) (q := 1) (by simp) (by simp)
  have h := h.newBlockNode (headerOn 3 3) (p := 3) (q := 2) (by simp) (by simp)
  have h := h.newBlockNode (headerOn 4 4) (p := 4) (q := 3) (by simp) (by simp)
  exact ⟨_, _, h, by simp, rfl, rfl, (ancestor_eq_walk h).1 4 (by simp) 0 (by decide) (by decide)⟩

end IniNode
