import IniNode.Index.BlockIndex
/-!
# The difficulty rule

`calcNextRequiredDifficulty` of `difficulty.go`, SugarShield-N510: the target of the next block is the average of the
last 510 targets, scaled by the time they took. A node is given by the headers that `Parent` leads through from it, the
newest first.
-/

open List

namespace IniNode

def sugarAveragingWindowTimespan : Int := sugarPowAveragingWindow * 5

def sugarMinActualTimespan : Int := sugarAveragingWindowTimespan * (100 - 16) / 100

def sugarMaxActualTimespan : Int := sugarAveragingWindowTimespan * (100 + 32) / 100

def calcPastMedianTime (node : List BlockHeader) : Int :=
  let timestamps := (node.take medianTimeBlocks).map BlockHeader.timestamp
  (timestamps.insertionSort (· ≤ ·))[timestamps.length / 2]?.getD 0

variable (lastNode : List BlockHeader)

/-- `bnAvg`, of the targets that the loop over the averaging window adds up. -/
def averageTarget : Int :=
  ((lastNode.take sugarPowAveragingWindow).map fun node => compactToBig node.bits).sum / sugarPowAveragingWindow

/-- `nActualTimespan`: a quarter of the deviation counts, within bounds. -/
def actualTimespan (lastMTP firstMTP : Int) : Int :=
  let actual := toInt64 (lastMTP - firstMTP)
  let actual := toInt64 (sugarAveragingWindowTimespan + (toInt64 (actual - sugarAveragingWindowTimespan)).tdiv 4)
  let actual := if actual < sugarMinActualTimespan then sugarMinActualTimespan else actual
  if sugarMaxActualTimespan < actual then sugarMaxActualTimespan else actual

def newTarget : Int :=
  averageTarget lastNode / sugarAveragingWindowTimespan *
    actualTimespan (calcPastMedianTime lastNode) (calcPastMedianTime (lastNode.drop sugarPowAveragingWindow))

/-- `calcNextRequiredDifficulty`. The links of `lastNode` are those after `repairDifficultyChain`; `repairAncestorChain`
is the deep repair of a `BlockChain`, and changes nothing in another `ChainCtx`. -/
def calcNextRequiredDifficulty (params : ChainParams) (repairAncestorChain : List BlockHeader → List BlockHeader)
    (lastNode : List BlockHeader) : Nat :=
  if params.powNoRetargeting ∨ lastNode = [] then params.powLimitBits
  else
    -- the walk ended before the window did
    let lastNode := if lastNode.drop sugarPowAveragingWindow = [] then repairAncestorChain lastNode else lastNode
    if lastNode.drop sugarPowAveragingWindow = [] then params.powLimitBits
    else bigToCompact (min (newTarget lastNode) params.powLimit)

/-- A target that a header may have. -/
def ChainParams.IsTarget (params : ChainParams) (bits : Nat) : Prop :=
  0 < compactToBig bits ∧ compactToBig bits ≤ params.powLimit

/-- `PowLimit` is a number of 32 bytes, and `PowLimitBits` does not exceed it. -/
structure ChainParams.Bounded (params : ChainParams) : Prop where
  limit : params.powLimit < 2 ^ 256
  bits : params.IsTarget params.powLimitBits

/-- `PowLimit` and `PowLimitBits` of the networks of `chaincfg`. -/
def powLimits : List (Int × Nat) :=
  [(2 ^ 246 - 1, 0x1f3fffff), (0x0f0f0f0f0f0f0f0f0f0f0f0f0f0f0f0f0f0f0f0f0f0f0f0f0f0f0f0f0f0f0f0f, 0x200f0f0f),
    (2 ^ 224 - 1, 0x1d00ffff), (2 ^ 255 - 1, 0x207fffff), (0x0377ae * 2 ^ 216, 0x1e0377ae)]

theorem powLimits_bounded {params : ChainParams} (h : (params.powLimit, params.powLimitBits) ∈ powLimits) :
    params.Bounded := by
  have hall : ∀ p ∈ powLimits, p.1 < 2 ^ 256 ∧ 0 < compactToBig p.2 ∧ compactToBig p.2 ≤ p.1 := by decide
  exact ⟨(hall _ h).1, (hall _ h).2⟩

theorem actualTimespan_bounds (lastMTP firstMTP : Int) :
    2142 ≤ actualTimespan lastMTP firstMTP ∧ actualTimespan lastMTP firstMTP ≤ 3366 := by
  have hmin : sugarMinActualTimespan = 2142 := rfl
  have hmax : sugarMaxActualTimespan = 3366 := rfl
  simp only [actualTimespan]
  split <;> split <;> omega

theorem calcPastMedianTime_mem {node : List BlockHeader} (h : node ≠ []) :
    ∃ b ∈ node, calcPastMedianTime node = b.timestamp := by
  have hlen : 0 < ((node.take medianTimeBlocks).map BlockHeader.timestamp).length := by
    have := length_pos_iff.2 h
    rw [length_map, length_take, medianTimeBlocks]
    omega
  have hlt : ((node.take medianTimeBlocks).map BlockHeader.timestamp).length / 2 <
      (((node.take medianTimeBlocks).map BlockHeader.timestamp).insertionSort (· ≤ ·)).length := by
    rw [length_insertionSort]
    omega
  have hmem := getElem_mem hlt
  rw [mem_insertionSort, List.mem_map] at hmem
  obtain ⟨b, hb, heq⟩ := hmem
  refine ⟨b, mem_of_mem_take hb, ?_⟩
  rw [heq, calcPastMedianTime]
  simp only [getElem?_eq_getElem hlt, Option.getD_some]

theorem actualTimespan_eq {lastMTP firstMTP : Int} (hlast : 0 ≤ lastMTP ∧ lastMTP < 2 ^ 32)
    (hfirst : 0 ≤ firstMTP ∧ firstMTP < 2 ^ 32) :
    actualTimespan lastMTP firstMTP = max 2142 (min 3366 (2550 + (lastMTP - firstMTP - 2550).tdiv 4)) := by
  have hmin : sugarMinActualTimespan = 2142 := rfl
  have hmax : sugarMaxActualTimespan = 3366 := rfl
  have hspan : sugarAveragingWindowTimespan = 2550 := rfl
  have hint : ∀ {x : Int}, -2 ^ 34 ≤ x → x < 2 ^ 34 → toInt64 x = x :=
    fun hl hh => Int.bmod_eq_of_le (by omega) (by omega)
  have hquarter : ((lastMTP - firstMTP - 2550).tdiv 4).natAbs = (lastMTP - firstMTP - 2550).natAbs / 4 :=
    Int.natAbs_tdiv _ 4
  simp only [actualTimespan, hspan]
  rw [hint (x := lastMTP - firstMTP) (by omega) (by omega), hint (x := lastMTP - firstMTP - 2550) (by omega) (by omega),
    hint (by omega) (by omega)]
  split <;> split <;> omega

/-- For a chain of at least 511 headers with legal targets of an average of at least 2550, the new target before it is
limited and made compact is within the two bounds, the bits are those of a legal target, and timestamps of 32 bits
overflow nowhere. -/
theorem retarget_legal {params : ChainParams} (hp : params.Bounded)
    {repairAncestorChain : List BlockHeader → List BlockHeader}
    {lastNode : List BlockHeader} (hlen : 511 ≤ lastNode.length) (htargets : ∀ b ∈ lastNode, params.IsTarget b.bits)
    (havg : 2550 ≤ averageTarget lastNode) :
    params.IsTarget (calcNextRequiredDifficulty params repairAncestorChain lastNode) ∧
      (params.powNoRetargeting = false → calcNextRequiredDifficulty params repairAncestorChain lastNode =
        bigToCompact (min (newTarget lastNode) params.powLimit)) ∧
      averageTarget lastNode / 2550 * 2142 ≤ newTarget lastNode ∧
      newTarget lastNode ≤ averageTarget lastNode / 2550 * 3366 ∧
      ((∀ b ∈ lastNode, 0 ≤ b.timestamp ∧ b.timestamp < 2 ^ 32) →
        newTarget lastNode = averageTarget lastNode / 2550 * max 2142 (min 3366 (2550 +
          (calcPastMedianTime lastNode - calcPastMedianTime (lastNode.drop sugarPowAveragingWindow) - 2550).tdiv 4))) := by
  have hne : lastNode ≠ [] := ne_nil_of_length_pos (by omega)
  have hdrop : lastNode.drop sugarPowAveragingWindow ≠ [] := by
    apply ne_nil_of_length_pos
    rw [length_drop, sugarPowAveragingWindow]
    omega
  have hbits : params.powNoRetargeting = false → calcNextRequiredDifficulty params repairAncestorChain lastNode =
      bigToCompact (min (newTarget lastNode) params.powLimit) := by
    intro hre
    simp [calcNextRequiredDifficulty, hre, hne, hdrop]
  obtain ⟨hlow, hhigh⟩ := actualTimespan_bounds (calcPastMedianTime lastNode)
    (calcPastMedianTime (lastNode.drop sugarPowAveragingWindow))
  have hpos : 0 ≤ averageTarget lastNode / 2550 := by omega
  have htarget : averageTarget lastNode / 2550 * 2142 ≤ newTarget lastNode :=
    Int.mul_le_mul_of_nonneg_left hlow hpos
  refine ⟨?_, hbits, htarget, Int.mul_le_mul_of_nonneg_left hhigh hpos, fun hstamps => ?_⟩
  · cases hre : params.powNoRetargeting with
    | true =>
      rw [calcNextRequiredDifficulty, if_pos (.inl hre)]
      exact hp.bits
    | false =>
      obtain ⟨b, hb⟩ := exists_mem_of_ne_nil _ hne
      have hlimit := htargets b hb
      have hlt := hp.limit
      rw [ChainParams.IsTarget] at hlimit
      rw [hbits hre]
      obtain ⟨n, hn⟩ := Int.eq_ofNat_of_zero_le (show 0 ≤ min (newTarget lastNode) params.powLimit by omega)
      rw [hn]
      have hn0 : n ≠ 0 := by omega
      have hlog : n.log2 < 256 := (Nat.log2_lt hn0).2 (by omega)
      have hlow := two_pow_log2_le_truncate hn0
      have hpos := Nat.two_pow_pos n.log2
      have hle := truncate_le n
      rw [ChainParams.IsTarget, compactToBig_bigToCompact hn0 (by omega)]
      exact ⟨by omega, by omega⟩
  · have hmedian : ∀ node : List BlockHeader, node ≠ [] → (∀ b ∈ node, b ∈ lastNode) →
        0 ≤ calcPastMedianTime node ∧ calcPastMedianTime node < 2 ^ 32 := by
      intro node hnode hsub
      obtain ⟨b, hb, heq⟩ := calcPastMedianTime_mem hnode
      exact heq ▸ hstamps b (hsub b hb)
    rw [newTarget, actualTimespan_eq (hmedian _ hne fun _ hb => hb) (hmedian _ hdrop fun _ hb => mem_of_mem_drop hb)]
    rfl

/-- The limits of Sugarchain's main network. -/
def mainLimits : ChainParams := { nonceParams with powLimit := 2 ^ 246 - 1 }

/-- After 511 headers of the easiest target. -/
theorem retarget_legal_main :
    mainLimits.IsTarget (calcNextRequiredDifficulty mainLimits id (replicate 511 (headerOn 1 1))) := by
  refine (retarget_legal (powLimits_bounded (by decide)) (length_replicate ▸ le_refl _) ?_ ?_).1
  · intro b hb
    rw [eq_of_mem_replicate hb]
    unfold ChainParams.IsTarget
    decide
  · decide +kernel

end IniNode
