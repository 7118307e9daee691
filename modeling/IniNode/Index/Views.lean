import IniNode.Index.ChainView
/-!
# How the views move

`setTip` rewrites as little of a view as it can: it walks down from the new tip until it meets a node that is
in its place. On top of the view that is one node, and at a node of the view it only cuts the view short.
-/

open List

namespace IniNode.ChainView

variable {mem : Memory} {c : ChainView} {p : Ptr} {h k : Int}

theorem nodeByHeight_top (hpos : 0 < c.nodes.length) : c.nodeByHeight (c.base + c.nodes.length - 1) = c.tip := by
  rw [nodeByHeight, if_neg (by omega), tip, getLast?_eq_getElem?]
  congr 2
  omega

/-- The walk of `setTip` goes no further than here. -/
def InPlace (mem : Memory) (c : ChainView) (p : Ptr) : Prop :=
  (mem p).height < c.base ∨ c.nodes[((mem p).height - c.base).toNat]? = some (some p)

theorem place_stop {base : Int} {fuel : Nat} {q : Option Ptr} {nodes : List (Option Ptr)}
    (hq : ∀ t, q = some t → InPlace mem ⟨nodes, base⟩ t) : place mem base fuel q nodes = nodes := by
  cases fuel with
  | zero => rfl
  | succ fuel =>
    cases q with
    | none => rfl
    | some t =>
      rw [place]
      rcases hq t rfl with ht | ht
      · rw [if_pos ht]
      · split
        · rfl
        · exact if_pos ht

theorem place_succ {base : Int} {fuel i : Nat} {nodes : List (Option Ptr)} (hi : (mem p).height = base + i) :
    place mem base (fuel + 1) (some p) nodes =
      if nodes[i]? = some (some p) then nodes else place mem base fuel (mem p).parent (nodes.set i (some p)) := by
  rw [place, if_neg (by omega)]
  simp [show ((mem p).height - base).toNat = i by omega]

theorem setTip_eq {i : Nat} (hi : (mem p).height = c.base + i) : c.setTip mem (some p) =
    { c with nodes := place mem c.base (i + 1) (some p) ((c.nodes ++ replicate (i + 1) none).take (i + 1)) } := by
  rw [setTip, if_neg (by omega)]
  simp [show ((mem p).height - c.base).toNat = i by omega]

theorem length_resized (nodes : List (Option Ptr)) (i : Nat) :
    ((nodes ++ replicate (i + 1) none).take (i + 1)).length = i + 1 := by
  rw [length_take, length_append, length_replicate]
  omega

theorem getElem?_resized {nodes : List (Option Ptr)} {i j : Nat} {q : Ptr} (hj : j ≤ i) :
    ((nodes ++ replicate (i + 1) none).take (i + 1))[j]? = some (some q) ↔ nodes[j]? = some (some q) := by
  rw [getElem?_take_of_lt (by omega)]
  by_cases hin : j < nodes.length
  · rw [getElem?_append_left hin]
  · rw [getElem?_append_right (by omega), getElem?_replicate, getElem?_eq_none (l := nodes) (by omega)]
    simp

/-- A new tip on top of the view, whose parent is in its place or has been cut. -/
theorem setTip_extend (hheight : (mem p).height = c.base + c.nodes.length)
    (hparent : ∀ t, (mem p).parent = some t → c.InPlace mem t) :
    c.setTip mem (some p) = { c with nodes := c.nodes ++ [some p] } := by
  have htake : (c.nodes ++ replicate (c.nodes.length + 1) none).take (c.nodes.length + 1) = c.nodes ++ [none] := by
    rw [take_append, take_of_length_le (Nat.le_succ _), Nat.add_sub_cancel_left]
    rfl
  rw [setTip_eq hheight, htake, place_succ hheight, if_neg (by simp), set_append_right _ _ le_rfl, Nat.sub_self,
    set_cons_zero, place_stop]
  intro t ht
  rcases hparent t ht with hlow | hin
  · exact .inl hlow
  · refine .inr ?_
    rw [getElem?_append_left (List.getElem?_eq_some_iff.1 hin).1, hin]

theorem setTip_cut (hp : c.contains mem p) :
    c.setTip mem (some p) = { c with nodes := c.nodes.take (((mem p).height - c.base).toNat + 1) } := by
  obtain ⟨hbase, hin⟩ := nodeByHeight_eq_some.1 hp
  have hlt := (List.getElem?_eq_some_iff.1 hin).1
  rw [setTip, if_neg (by omega)]
  simp only
  rw [take_append_of_le_length (by omega), place_stop]
  rintro t ⟨⟩
  refine .inr ?_
  rw [getElem?_take_of_lt (Nat.lt_succ_self _), hin]

theorem nodeByHeight_pruneBelow (c : ChainView) (h k : Int) :
    (c.pruneBelow h).nodeByHeight k = if k < h then (if h ≤ c.base then c.nodeByHeight k else none)
    else c.nodeByHeight k := by
  unfold pruneBelow
  split
  next hle =>
    split <;> rfl
  next hle =>
    split
    next hk => rw [nodeByHeight, if_pos (.inl hk)]
    next hk =>
      simp only [nodeByHeight, length_drop, getElem?_drop]
      by_cases hin : c.base + c.nodes.length ≤ k
      · rw [if_pos (by omega), if_pos (by omega)]
      · rw [if_neg (by omega), if_neg (by omega), show (h - c.base).toNat + (k - h).toNat = (k - c.base).toNat by omega]

theorem base_pruneBelow (c : ChainView) (h : Int) : (c.pruneBelow h).base = max c.base h := by
  unfold pruneBelow
  split
  · omega
  · simp only
    omega

theorem end_pruneBelow (hh : h ≤ c.base + c.nodes.length) :
    (c.pruneBelow h).base + (c.pruneBelow h).nodes.length = c.base + c.nodes.length := by
  unfold pruneBelow
  split
  · rfl
  · simp only [length_drop]
    omega

theorem tip_pruneBelow (hh : h < c.base + c.nodes.length) : (c.pruneBelow h).tip = c.tip := by
  unfold pruneBelow
  split
  · rfl
  · rw [tip, tip, getLast?_drop, if_neg (by omega)]

end IniNode.ChainView
