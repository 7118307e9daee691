import IniNode.Index.Loading
import IniNode.Index.Views
/-!
# The tips after loading

What setting the views on the stored tips, pruning them and marking the ancestors valid makes of the loaded
nodes.
-/

open List Function

namespace IniNode

variable {params : ChainParams} {db : Db} {chain : List NodeRow} {low n : Nat} {work : Nat → Nat}
  {bi : BlockIndex}

/-! ## The views -/

/-- The view whose tip is this many nodes above the lowest one loaded. -/
def loadedView (low t : Nat) : ChainView where
  nodes := (range (low + t + 1)).map fun h => if low ≤ h then some (h - low) else none

theorem getElem?_loadedView {low t h : Nat} :
    (loadedView low t).nodes[h]? = if h ≤ low + t then some (if low ≤ h then some (h - low) else none) else none := by
  simp only [loadedView, getElem?_map]
  by_cases hh : h ≤ low + t
  · rw [getElem?_range (by omega), if_pos hh]
    rfl
  · rw [getElem?_eq_none (by rw [length_range]; omega), if_neg hh]
    rfl

/-- The walk down from the last of the lowest nodes fills in their heights. -/
theorem Loaded.place (hl : Loaded params chain low work n bi) {t fuel : Nat} (ht : t ≤ n) (hf : t ≤ fuel)
    {nodes : List (Option Ptr)} (hfree : ∀ j < t, nodes[low + j]? = some none) (h : Nat) :
    (ChainView.place bi.mem 0 fuel (if t = 0 then none else some (t - 1)) nodes)[h]? =
      if low ≤ h ∧ h < low + t then some (some (h - low)) else nodes[h]? := by
  induction t generalizing fuel nodes with
  | zero => rw [ChainView.place_stop (by simp), if_neg (by omega)]
  | succ t ih =>
    obtain ⟨fuel, rfl⟩ : ∃ f, fuel = f + 1 := ⟨fuel - 1, by omega⟩
    obtain ⟨row, hrow, -, -, -, -, hheight, hparent⟩ := hl.node t ht
    have htop := hfree t (Nat.lt_succ_self t)
    rw [if_neg t.succ_ne_zero, Nat.add_sub_cancel, ChainView.place_succ (hheight.trans (Int.zero_add _).symm), htop,
      if_neg (by simp), hparent]
    rw [ih (by omega) (by omega) fun j hj => by
      rw [getElem?_set, if_neg (by omega)]; exact hfree j (by omega)]
    rw [getElem?_set]
    by_cases hh : low + t = h
    · subst hh
      rw [if_neg (by omega), if_pos rfl, if_pos (List.getElem?_eq_some_iff.1 htop).1, if_pos (by omega),
        Nat.add_sub_cancel_left]
    · rw [if_neg hh]
      exact if_congr (by omega) rfl rfl

theorem Loaded.setTip (hl : Loaded params chain low work n bi) {t : Nat} (ht : t < n) :
    ChainView.setTip bi.mem {} (some t) = loadedView low t := by
  obtain ⟨row, hrow, -, -, -, -, hheight, -⟩ := hl.node t ht
  rw [@ChainView.setTip_eq _ {} _ _ (hheight.trans (Int.zero_add _).symm)]
  simp only [nil_append, take_replicate, Nat.min_self]
  have hnodes : ChainView.place bi.mem 0 (low + t + 1) (some t) (replicate (low + t + 1) none) =
      (loadedView low t).nodes := by
    refine ext_getElem? fun h => (hl.place ht (by omega) (fun j hj => ?_) h).trans ?_
    · rw [getElem?_replicate, if_pos (by omega)]
    rw [getElem?_loadedView, getElem?_replicate]
    by_cases hh : h ≤ low + t
    · rw [if_pos hh, if_pos (Nat.lt_succ_of_le hh), apply_ite some]
      exact if_congr (by omega) rfl rfl
    · rw [if_neg hh, if_neg (by omega), if_neg (by omega)]
  rw [hnodes]
  rfl

theorem anchor_loadedView {low t B p : Nat} :
    (loadedView low t).anchor B = some p ↔ 0 < B ∧ low ≤ B ∧ B ≤ low + t ∧ p = B - low := by
  have hbase : (loadedView low t).base = 0 := rfl
  unfold ChainView.anchor
  rw [hbase]
  by_cases hB : (B : Int) ≤ 0
  · rw [if_pos hB]
    constructor
    · intro h
      cases h
    · rintro ⟨h, -⟩
      omega
  · rw [if_neg hB, ChainView.nodeByHeight_eq_some, hbase, Int.sub_zero, Int.toNat_natCast, getElem?_loadedView]
    constructor
    · rintro ⟨-, h⟩
      split_ifs at h with h1 h2
      · exact ⟨by omega, h2, h1, (Option.some.inj (Option.some.inj h)).symm⟩
      · cases Option.some.inj h
    · rintro ⟨-, h2, h1, rfl⟩
      rw [if_pos h1, if_pos h2]
      exact ⟨by omega, rfl⟩

theorem tip_loadedView_pruneBelow {low t B : Nat} (hB : B ≤ low + t) :
    ((loadedView low t).pruneBelow B).tip = some t := by
  have hlen : (loadedView low t).nodes.length = low + t + 1 := by simp [loadedView]
  have hbase : (loadedView low t).base = 0 := rfl
  rw [ChainView.tip_pruneBelow (by omega), ChainView.tip, getLast?_eq_getElem?, hlen, Nat.add_sub_cancel,
    getElem?_loadedView, if_pos (Nat.le_refl _), if_pos (by omega), Nat.add_sub_cancel_left]
  rfl

/-! ## The links -/

section Install
variable {start ht : Nat} {stateHeight : Int}

/-- Setting the tips cuts the parent of the lowest node of the best chain's window, and no other. -/
theorem Loaded.installTips (hl : Loaded params chain low work n bi) (hchain : bi.bestChain = {})
    (hheader : bi.bestHeader = {}) (hn : 0 < n) (hstart : bi.windowBoundary stateHeight = start)
    (hlow : low ≤ start) (hhigh : start ≤ low + (n - 1)) (hzero : bi.windowSize ≤ 0 → start = 0) (hht : ht < n)
    (hbound : bi.windowBoundary (low + ht : Nat) ≤ low) :
    (∀ j, j < n → ((installTips bi (n - 1) ht stateHeight).mem j).parent =
      if j = 0 ∨ low + j = start then none else some (j - 1)) ∧
    (∀ j, (installTips bi (n - 1) ht stateHeight).mem j =
      { bi.mem j with
        parent := ((installTips bi (n - 1) ht stateHeight).mem j).parent
        ancestor := ((installTips bi (n - 1) ht stateHeight).mem j).ancestor }) ∧
    (installTips bi (n - 1) ht stateHeight).index = bi.index ∧
    (installTips bi (n - 1) ht stateHeight).fresh = bi.fresh ∧
    (installTips bi (n - 1) ht stateHeight).bestChain.tip = some (n - 1) := by
  have hview : ∀ t, t < n → ChainView.setTip bi.mem {} (some t) = loadedView low t := fun t ht => hl.setTip ht
  have hparent : ∀ j, j < n → (bi.mem j).parent = if j = 0 then none else some (j - 1) := fun j hj =>
    (hl.node j hj).choose_spec.2.2.2.2.2.2
  have hheight : (bi.mem ht).height = (low + ht : Nat) := (hl.node ht hht).choose_spec.2.2.2.2.2.1
  unfold IniNode.installTips
  simp only [hchain, hheader, hview _ hht, hview (n - 1) (by omega)]
  by_cases hw : bi.windowSize ≤ 0
  · obtain rfl := hzero hw
    simp only [hw, if_true]
    refine ⟨fun j hj => ?_, fun _ => trivial, trivial, trivial, ?_⟩
    · rw [hparent j hj]
      exact if_congr (by omega) rfl rfl
    · exact tip_loadedView_pruneBelow (B := 0) (by omega)
  · simp only [hw, if_false, hstart, hheight]
    refine ⟨fun j hj => ?_, fun j => ?_, trivial, trivial, tip_loadedView_pruneBelow (by omega)⟩
    · obtain ⟨B, hB⟩ := Int.eq_ofNat_of_zero_le (bi.windowBoundary_nonneg (low + ht : Nat))
      rw [hB] at hbound ⊢
      rw [BlockIndex.severAnchor_parent, BlockIndex.severAnchor_parent, hparent j hj]
      by_cases hj0 : j = 0
      · simp [hj0]
      · -- only the lowest node can be the anchor of the header view
        have hanc : (loadedView low ht).anchor B ≠ some j := by
          intro h
          obtain ⟨-, h1, h2, h3⟩ := anchor_loadedView.1 h
          omega
        rw [if_neg hanc, if_neg hj0]
        by_cases hjs : low + j = start
        · rw [if_pos (anchor_loadedView.2 ⟨by omega, hlow, hhigh, by omega⟩), if_pos (.inr hjs)]
        · have hanc' : (loadedView low (n - 1)).anchor start ≠ some j := by
            intro h
            obtain ⟨-, h1, h2, h3⟩ := anchor_loadedView.1 h
            omega
          rw [if_neg hanc', if_neg (by omega)]
    · rw [BlockIndex.severAnchor_data, BlockIndex.severAnchor_data]

theorem markValid_apply {mem : Memory} {d fuel : Nat} (hf : d ≤ fuel)
    (hpar : ∀ i < d, (mem (start + i)).parent = if i = 0 then none else some (start + i - 1)) (j : Nat) :
    markValid fuel (if d = 0 then none else some (start + d - 1)) mem j =
      if start ≤ j ∧ j < start + d then { mem j with status := { (mem j).status with valid := true } } else mem j := by
  induction d generalizing mem fuel with
  | zero =>
    rw [if_pos rfl, if_neg (by omega)]
    cases fuel <;> rfl
  | succ d ih =>
    obtain ⟨fuel, rfl⟩ : ∃ f, fuel = f + 1 := ⟨fuel - 1, by omega⟩
    have hother : ∀ i, i ≠ start + d → update mem (start + d)
        { mem (start + d) with status := { (mem (start + d)).status with valid := true } } i = mem i :=
      fun i hi => update_of_ne hi _ _
    rw [if_neg d.succ_ne_zero, ← Nat.add_assoc, Nat.add_sub_cancel, markValid, hpar d (Nat.lt_succ_self d)]
    rw [ih (by omega) fun i hi => by rw [hother _ (by omega)]; exact hpar i (by omega)]
    by_cases hj : j = start + d
    · subst hj
      rw [if_neg (by omega), update_self, if_pos (by omega)]
    · rw [hother j hj]
      exact if_congr (by omega) rfl rfl

end Install

end IniNode
