import IniNode.Index.Difficulty
import IniNode.Lib.Sorted
/-!
# Median time

A block comes after the median of the eleven timestamps before it. Timestamps may fall, but this median never does: at
most half of the window is below it, and the block that enters is not.
-/

open IniNode.Lib List

namespace IniNode

variable {node : List BlockHeader} {header : BlockHeader}

theorem le_calcPastMedianTime_iff {m : Int} (h : node ≠ []) : m ≤ calcPastMedianTime node ↔
    ((node.take medianTimeBlocks).map BlockHeader.timestamp).countP (· < m) ≤ min medianTimeBlocks node.length / 2 := by
  have hpos := length_pos_iff.2 h
  rw [calcPastMedianTime, length_map, length_take]
  have hk : min medianTimeBlocks node.length / 2 <
      (((node.take medianTimeBlocks).map BlockHeader.timestamp).insertionSort (· ≤ ·)).length := by
    rw [length_insertionSort, length_map, length_take, medianTimeBlocks]
    omega
  rw [getElem?_eq_getElem hk, Option.getD_some, le_getElem_iff_countP (pairwise_insertionSort ..) hk,
    (perm_insertionSort (· ≤ ·) _).countP_eq]

theorem calcPastMedianTime_le_cons (hne : node ≠ []) (h : calcPastMedianTime node < header.timestamp) :
    calcPastMedianTime node ≤ calcPastMedianTime (header :: node) := by
  have hold := (le_calcPastMedianTime_iff hne).1 (le_refl _)
  rw [le_calcPastMedianTime_iff (cons_ne_nil _ _), medianTimeBlocks, take_succ_cons, map_cons,
    countP_cons_of_neg (by simpa using le_of_lt h), length_cons]
  have hsub := ((take_sublist_take_left (l := node) (by decide : 10 ≤ 11)).map BlockHeader.timestamp).countP_le
    (p := (· < calcPastMedianTime node))
  rw [medianTimeBlocks] at hold
  omega

/-- The rule of `CheckBlockHeaderContext` for timestamps, along a chain. -/
def AfterMedian : List BlockHeader → Prop
  | [] => True
  | header :: prevNode => (prevNode ≠ [] → calcPastMedianTime prevNode < header.timestamp) ∧ AfterMedian prevNode

/-- Along a chain that keeps the rule, no block has a median time above that of a later block. -/
theorem median_time_mono (h : AfterMedian node) {k : Nat} (hk : k < node.length) :
    calcPastMedianTime (node.drop k) ≤ calcPastMedianTime node := by
  induction node generalizing k with
  | nil => exact absurd hk (Nat.not_lt_zero k)
  | cons header node ih =>
    cases k with
    | zero => exact le_refl _
    | succ k =>
      have hk := Nat.lt_of_succ_lt_succ hk
      have hne := ne_nil_of_length_pos (Nat.zero_lt_of_lt hk)
      exact le_trans (ih h.2 hk) (calcPastMedianTime_le_cons hne (h.1 hne))

/-- The newest of four blocks is older than the one before it. -/
def olderBlock : List BlockHeader := [25, 30, 20, 5].map (⟨1, 0, 0, ·, 0, 0⟩)

theorem median_time_mono_older : calcPastMedianTime (olderBlock.drop 2) ≤ calcPastMedianTime olderBlock := by
  refine @median_time_mono olderBlock ?_ 2 (by decide)
  simp only [olderBlock, map, AfterMedian]
  decide

end IniNode
