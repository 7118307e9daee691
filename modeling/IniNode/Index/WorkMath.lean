import Mathlib
/-!
# Targets and work

The arithmetic of the `workmath` package: the compact form of a target, and the work a block stands for.
-/

namespace IniNode

/-- `CompactToBig`: eight bits of exponent, one of sign, twenty-three of mantissa. -/
def compactToBig (compact : ℕ) : Int :=
  let mantissa := compact % 2 ^ 23
  let isNegative := compact / 2 ^ 23 % 2 = 1
  let exponent := compact / 2 ^ 24
  let bn : Int :=
    if exponent ≤ 3 then (mantissa / 2 ^ (8 * (3 - exponent)) : ℕ)
    else (mantissa * 2 ^ (8 * (exponent - 3)) : ℕ)
  if isNegative then -bn else bn

variable (n : ℕ)

/-- `len(n.Bytes())`. -/
def byteLength : ℕ := if n = 0 then 0 else n.log2 / 8 + 1

/-- `BigToCompact`. The shift to the right rounds down, so it can carry a negative number into a byte more. -/
def bigToCompact (n : Int) : ℕ :=
  if n = 0 then 0
  else
    let exponent := byteLength n.natAbs
    let mantissa :=
      if exponent ≤ 3 then n.natAbs * 2 ^ (8 * (3 - exponent)) else (n >>> (8 * (exponent - 3))).natAbs
    -- a mantissa that reaches into the sign bit gives its lowest byte up
    let (mantissa, exponent) :=
      if mantissa / 2 ^ 23 % 2 = 1 then (mantissa / 2 ^ 8, exponent + 1) else (mantissa, exponent)
    (exponent * 2 ^ 24 ||| mantissa ||| if n < 0 then 2 ^ 23 else 0) % 2 ^ 32

/-- `CalcWork`: no work for a target that is not positive. -/
def calcWork (bits : ℕ) : ℕ :=
  let difficultyNum := compactToBig bits
  if difficultyNum ≤ 0 then 0 else 2 ^ 256 / (difficultyNum.toNat + 1)

example : bigToCompact 0 = 0 := by decide

example : bigToCompact (-1) = 25231360 := by decide

example : bigToCompact (-2 ^ 32 + 1) = 0x05800000 := by decide

theorem mantissa_eq (n k : ℕ) :
    (if k ≤ 3 then n * 2 ^ (8 * (3 - k)) else n / 2 ^ (8 * (k - 3))) = n * 2 ^ 24 / 2 ^ (8 * k) := by
  split
  next hk =>
    rw [show 2 ^ 24 = 2 ^ (8 * (3 - k)) * 2 ^ (8 * k) by rw [← Nat.pow_add]; congr 1; omega, ← Nat.mul_assoc,
      Nat.mul_div_cancel _ (Nat.two_pow_pos _)]
  next hk =>
    rw [show 2 ^ (8 * k) = 2 ^ (8 * (k - 3)) * 2 ^ 24 by rw [← Nat.pow_add]; congr 1; omega,
      Nat.mul_div_mul_right _ _ (by decide)]

/-- The exponent of the compact form of a positive number leaves room for the sign bit. -/
def compactExponent : ℕ := (n.log2 + 1) / 8 + 1

/-- The low bits that the compact form has no room for. -/
def droppedBits : ℕ := 8 * (compactExponent n - 3)

def truncate : ℕ := n / 2 ^ droppedBits n * 2 ^ droppedBits n

variable {m n : ℕ}

theorem mantissa_lt (n : ℕ) : n * 2 ^ 24 / 2 ^ (8 * compactExponent n) < 2 ^ 23 := by
  have hn : n < 2 ^ (n.log2 + 1) := Nat.lt_log2_self
  have he : 2 ^ (n.log2 + 1 + 1) ≤ 2 ^ (8 * compactExponent n) :=
    Nat.pow_le_pow_right (by decide) (by unfold compactExponent; omega)
  rw [Nat.div_lt_iff_lt_mul (Nat.two_pow_pos _)]
  omega

theorem bigToCompact_eq (h : n ≠ 0) :
    bigToCompact n = (compactExponent n * 2 ^ 24 + n * 2 ^ 24 / 2 ^ (8 * compactExponent n)) % 2 ^ 32 := by
  have hlt := mantissa_lt n
  have hk : byteLength n = n.log2 / 8 + 1 := if_neg h
  have hshift (k : ℕ) : ((n : Int) >>> k).natAbs = n / 2 ^ k := Nat.shiftRight_eq_div_pow n k
  have hor (e : ℕ) {mantissa : ℕ} (h : mantissa < 2 ^ 24) : e * 2 ^ 24 ||| mantissa = e * 2 ^ 24 + mantissa := by
    rw [Nat.mul_comm, Nat.two_pow_add_eq_or_of_lt h]
  simp only [bigToCompact, hshift, mantissa_eq, Int.natAbs_natCast]
  rw [if_neg (by omega), if_neg (by omega : ¬ (n : Int) < 0), Nat.or_zero]
  -- the sign bit is reached by the numbers that fill their bytes
  by_cases hfull : n.log2 % 8 = 7
  · have he : compactExponent n = byteLength n + 1 := by unfold compactExponent; omega
    have hpow : 2 ^ (8 * byteLength n) = 2 * 2 ^ n.log2 := by rw [← Nat.pow_succ']; congr 1; omega
    have hlow := Nat.log2_self_le h
    have hhigh : n < 2 * 2 ^ n.log2 := Nat.pow_succ' ▸ Nat.lt_log2_self
    rw [he, Nat.mul_succ 8, Nat.pow_add, ← Nat.div_div_eq_div_mul, hpow]
    have hmin : 2 ^ 23 ≤ n * 2 ^ 24 / (2 * 2 ^ n.log2) := by rw [Nat.le_div_iff_mul_le (by omega)]; omega
    have hmax : n * 2 ^ 24 / (2 * 2 ^ n.log2) < 2 ^ 24 := by rw [Nat.div_lt_iff_lt_mul (by omega)]; omega
    rw [if_pos (by omega), hor _ (by omega)]
  · have he : compactExponent n = byteLength n := by unfold compactExponent; omega
    rw [he] at hlt ⊢
    generalize n * 2 ^ 24 / 2 ^ (8 * byteLength n) = mantissa at hlt
    rw [if_neg (by omega), hor _ (by omega)]

theorem compactToBig_bigToCompact (h : n ≠ 0) (hlog : n.log2 < 8 * 255 - 1) :
    compactToBig (bigToCompact n) = truncate n := by
  have he : compactExponent n < 256 := by unfold compactExponent; omega
  have hm := mantissa_lt n
  rw [bigToCompact_eq h, Nat.mod_eq_of_lt (by omega), truncate, droppedBits]
  rw [← mantissa_eq] at hm ⊢
  generalize compactExponent n = e at he hm
  generalize hmantissa : (if e ≤ 3 then n * 2 ^ (8 * (3 - e)) else n / 2 ^ (8 * (e - 3))) = mantissa at hm
  rw [compactToBig, show (e * 2 ^ 24 + mantissa) % 2 ^ 23 = mantissa by omega,
    if_neg (by omega : ¬ (e * 2 ^ 24 + mantissa) / 2 ^ 23 % 2 = 1), show (e * 2 ^ 24 + mantissa) / 2 ^ 24 = e by omega,
    ← hmantissa]
  split
  next he => simp [Nat.mul_div_cancel _ (Nat.two_pow_pos _), Nat.sub_eq_zero_of_le he]
  next => rfl

theorem truncate_le (n : ℕ) : truncate n ≤ n := Nat.div_mul_le_self _ _

theorem two_pow_log2_le_truncate (h : n ≠ 0) : 2 ^ n.log2 ≤ truncate n := by
  have hpow : 2 ^ (n.log2 - droppedBits n) * 2 ^ droppedBits n = 2 ^ n.log2 := by
    rw [← Nat.pow_add]
    congr 1
    unfold droppedBits compactExponent
    omega
  rw [← hpow]
  exact Nat.mul_le_mul_right _ ((Nat.le_div_iff_mul_le (Nat.two_pow_pos _)).2 (hpow ▸ Nat.log2_self_le h))

theorem log2_eq_of_le (hlow : 2 ^ n.log2 ≤ m) (hle : m ≤ n) : m.log2 = n.log2 :=
  (Nat.log2_eq_iff (by have := Nat.two_pow_pos n.log2; omega)).2 ⟨hlow, Nat.lt_of_le_of_lt hle Nat.lt_log2_self⟩

theorem bigToCompact_truncate (h : n ≠ 0) : bigToCompact (truncate n) = bigToCompact n := by
  have hlow := two_pow_log2_le_truncate h
  have he : compactExponent (truncate n) = compactExponent n := by
    rw [compactExponent, log2_eq_of_le hlow (truncate_le n), compactExponent]
  rw [bigToCompact_eq h, bigToCompact_eq (by have := Nat.two_pow_pos n.log2; omega), he, ← mantissa_eq, ← mantissa_eq,
    truncate, droppedBits]
  split
  next hle => simp [Nat.sub_eq_zero_of_le hle]
  next => rw [Nat.mul_div_cancel _ (Nat.two_pow_pos _)]

theorem truncate_mono (hm : m ≠ 0) (h : m ≤ n) : truncate m ≤ truncate n := by
  by_cases hlog : 2 ^ n.log2 ≤ m
  · have hbits : droppedBits m = droppedBits n := by simp [droppedBits, compactExponent, log2_eq_of_le hlog h]
    rw [truncate, hbits]
    exact Nat.mul_le_mul_right _ (Nat.div_le_div_right h)
  · have := truncate_le m
    have := @two_pow_log2_le_truncate n (by omega)
    omega

theorem sub_truncate_lt (h : n ≠ 0) : (n - truncate n) * 2 ^ 16 < 2 ^ (8 * byteLength n) := by
  have hmod : truncate n + n % 2 ^ droppedBits n = n := Nat.div_add_mod' n _
  have hlt := Nat.mod_lt n (Nat.two_pow_pos (droppedBits n))
  have hpos := Nat.two_pow_pos (8 * byteLength n)
  have hk : byteLength n = n.log2 / 8 + 1 := if_neg h
  rcases Nat.eq_zero_or_pos (droppedBits n) with hzero | hdrop
  · rw [hzero] at hmod hlt
    omega
  · have hpow : 2 ^ (droppedBits n + 16) ≤ 2 ^ (8 * byteLength n) :=
      Nat.pow_le_pow_right (by decide) (by unfold droppedBits compactExponent at *; omega)
    rw [Nat.pow_add] at hpow
    omega

/-- A target is read back from its compact form rounded down, by less than its lowest `L - 2` bytes of `L`. What is read
back has the same compact form, and a smaller target is not read back larger, as long as the exponent fits its byte. -/
theorem compact_truncates (hm : 0 < m) (hmn : m ≤ n) (hn : n < 2 ^ (8 * 255 - 1)) : compactToBig (bigToCompact n) ≤ n ∧
    (n - compactToBig (bigToCompact n)) * 2 ^ 16 < 2 ^ (8 * byteLength n) ∧
    bigToCompact (compactToBig (bigToCompact n)) = bigToCompact n ∧
    compactToBig (bigToCompact m) ≤ compactToBig (bigToCompact n) := by
  have hm0 : m ≠ 0 := by omega
  have hn0 : n ≠ 0 := by omega
  have hmlog := (Nat.log2_lt hm0).2 (Nat.lt_of_le_of_lt hmn hn)
  rw [compactToBig_bigToCompact hm0 hmlog, compactToBig_bigToCompact hn0 ((Nat.log2_lt hn0).2 hn)]
  refine ⟨Int.ofNat_le.2 (truncate_le n), ?_, bigToCompact_truncate hn0, Int.ofNat_le.2 (truncate_mono hm0 hmn)⟩
  rw [← Int.ofNat_sub (truncate_le n)]
  exact_mod_cast sub_truncate_lt hn0

theorem compact_truncates_bytes : compactToBig (bigToCompact 0x123456) ≤ compactToBig (bigToCompact 0x89abcdef) :=
  have hlt (n : ℕ) (h : n ≠ 0) : n.log2 < 8 * 255 - 1 → n < 2 ^ (8 * 255 - 1) := (Nat.log2_lt h).1
  (@compact_truncates 0x123456 0x89abcdef (by decide) (by decide) (hlt _ (by decide) (by decide))).2.2.2

/-- The exponent of this number is 256. -/
theorem exponent_wraps : compactToBig (bigToCompact 1) = 1 ∧
    compactToBig (bigToCompact (2 ^ (8 * 255 - 1) : ℕ)) = 0 := by
  refine ⟨by decide, ?_⟩
  generalize hk : 8 * 255 - 1 = k
  have hmantissa : 2 ^ k * 2 ^ 24 / 2 ^ (k + 9) = 2 ^ 15 := by
    rw [← Nat.pow_add, Nat.pow_div (by omega) (by decide)]
    congr 1
    omega
  rw [bigToCompact_eq (Nat.ne_of_gt (Nat.two_pow_pos k)), compactExponent, Nat.log2_two_pow,
    show 8 * ((k + 1) / 8 + 1) = k + 9 by omega, hmantissa, show (k + 1) / 8 + 1 = 256 by omega]
  decide

end IniNode
