import IniNode.Lib.ByteKeys
/-!
# Variable-length quantities

A number in groups of seven bits, the most significant first; a byte with its high bit set is followed by another. One is
taken off at every group, so that a number has a single code.
-/

open List

namespace IniNode.Lib

/-- What the bytes before the last one spell. -/
def nextGroup (n : Nat) : Nat := n / 128 - 1

def serializeSizeVLQ (n : Nat) : Nat := if n ≤ 0x7f then 1 else serializeSizeVLQ (nextGroup n) + 1
decreasing_by rw [nextGroup]; omega

/-- The loop of `putVLQ`, with the high bit of the byte it writes next. -/
def vlqGroups (highBitMask n : Nat) : Bytes :=
  UInt8.ofNat (n % 128 + highBitMask) :: if n ≤ 0x7f then [] else vlqGroups 0x80 (nextGroup n)
decreasing_by rw [nextGroup]; omega

def vlq (highBitMask n : Nat) : Bytes := (vlqGroups highBitMask n).reverse

def putVLQ (n : Nat) : Bytes := vlq 0 n

/-- The loop of `deserializeVLQ`: the number and how many bytes it took. -/
def readVLQ (n size : Nat) : Bytes → Nat × Nat
  | [] => (n, size)
  | val :: serialized =>
    let n := (n * 128 + val.toNat % 128) % 2 ^ 64
    if val.toNat < 128 then (n, size + 1) else readVLQ ((n + 1) % 2 ^ 64) (size + 1) serialized

def deserializeVLQ (serialized : Bytes) : Nat × Nat := readVLQ 0 0 serialized

variable {m n i j : Nat}

theorem vlq_of_le (h : n ≤ 0x7f) : vlq m n = [UInt8.ofNat (n % 128 + m)] := by rw [vlq, vlqGroups, if_pos h]; rfl

theorem vlq_of_not_le (h : ¬ n ≤ 0x7f) : vlq m n = vlq 128 (nextGroup n) ++ [UInt8.ofNat (n % 128 + m)] := by
  rw [vlq, vlqGroups, if_neg h, reverse_cons, vlq]

theorem length_vlq : (vlq m n).length = serializeSizeVLQ n := by
  fun_induction serializeSizeVLQ n generalizing m with
  | case1 n h => rw [vlq_of_le h, length_singleton]
  | case2 n h ih => rw [vlq_of_not_le h, length_append, ih, length_singleton]

theorem toNat_group (hm : m ≤ 128) : (UInt8.ofNat (n % 128 + m)).toNat = n % 128 + m := by
  rw [UInt8.toNat_ofNat']
  omega

/-! ## Reading -/

theorem readVLQ_high (h : n < 2 ^ 57) (size : Nat) (rest : Bytes) :
    readVLQ 0 size (vlq 128 n ++ rest) = readVLQ (n + 1) (size + serializeSizeVLQ n) rest := by
  fun_induction serializeSizeVLQ n generalizing rest with
  | case1 n hn =>
    rw [vlq_of_le hn, singleton_append, readVLQ, toNat_group (Nat.le_refl _), if_neg (by omega)]
    congr
    omega
  | case2 n hn ih =>
    rw [vlq_of_not_le hn, append_assoc, ih (by rw [nextGroup]; omega), singleton_append, readVLQ,
      toNat_group (Nat.le_refl _), if_neg (by omega)]
    congr 1
    rw [nextGroup]
    omega

theorem deserializeVLQ_putVLQ (h : n < 2 ^ 64) : deserializeVLQ (putVLQ n) = (n, serializeSizeVLQ n) := by
  have hlow {acc size : Nat} (hacc : acc * 128 + n % 128 = n) :
      readVLQ acc size [UInt8.ofNat (n % 128 + 0)] = (n, size + 1) := by
    rw [readVLQ, toNat_group (Nat.zero_le _), if_pos (by omega)]
    congr
    omega
  rw [deserializeVLQ, putVLQ, serializeSizeVLQ]
  by_cases hn : n ≤ 0x7f
  · rw [vlq_of_le hn, if_pos hn, hlow (by omega)]
  · rw [vlq_of_not_le hn, if_neg hn, readVLQ_high (by rw [nextGroup]; omega), hlow (by rw [nextGroup]; omega), Nat.zero_add]

/-! ## Order -/

theorem serializeSizeVLQ_pos : 0 < serializeSizeVLQ n := by
  rw [serializeSizeVLQ]
  split
  · exact Nat.one_pos
  · exact Nat.succ_pos _

theorem size_of_not_le (h : ¬ n ≤ 0x7f) : serializeSizeVLQ n = serializeSizeVLQ (nextGroup n) + 1 := by
  rw [serializeSizeVLQ, if_neg h]

theorem one_lt_size_iff : 1 < serializeSizeVLQ n ↔ ¬ n ≤ 0x7f := by
  constructor
  · intro h hn
    rw [serializeSizeVLQ, if_pos hn] at h
    exact Nat.lt_irrefl 1 h
  · intro hn
    rw [size_of_not_le hn]
    exact Nat.succ_lt_succ serializeSizeVLQ_pos

theorem size_mono (h : i ≤ j) : serializeSizeVLQ i ≤ serializeSizeVLQ j := by
  fun_induction serializeSizeVLQ i generalizing j with
  | case1 i hi => exact serializeSizeVLQ_pos
  | case2 i hi ih =>
    rw [size_of_not_le fun hj => hi (Nat.le_trans h hj)]
    exact Nat.succ_le_succ (ih (Nat.sub_le_sub_right (Nat.div_le_div_right h) 1))

theorem group_lt_iff (hm : m ≤ 128) :
    [UInt8.ofNat (i % 128 + m)] < [UInt8.ofNat (j % 128 + m)] ↔ i % 128 < j % 128 := by
  rw [cons_lt_cons_iff, UInt8.lt_iff_toNat_lt, toNat_group hm, toNat_group hm]
  simp

/-- Codes of one length are ordered as the numbers are. -/
theorem vlq_order (hs : serializeSizeVLQ i = serializeSizeVLQ j) :
    (vlq 128 i < vlq 128 j ↔ i < j) ∧ (vlq 128 i = vlq 128 j ↔ i = j) := by
  have hbyte {k : Nat} : (UInt8.ofNat (k % 128 + 128)).toNat = k % 128 + 128 := toNat_group (Nat.le_refl _)
  fun_induction serializeSizeVLQ i generalizing j with
  | case1 i hi =>
    have hj : j ≤ 0x7f := not_not.1 (one_lt_size_iff.not.1 (hs ▸ Nat.lt_irrefl 1))
    rw [vlq_of_le hi, vlq_of_le hj, group_lt_iff (Nat.le_refl _), singleton_inj, ← UInt8.toNat_inj, hbyte, hbyte]
    omega
  | case2 i hi ih =>
    have hj : ¬ j ≤ 0x7f := one_lt_size_iff.1 (hs ▸ Nat.succ_lt_succ serializeSizeVLQ_pos)
    rw [size_of_not_le hj, Nat.succ_inj] at hs
    obtain ⟨hlt, heq⟩ := ih hs
    have hlen : (vlq 128 (nextGroup i)).length = (vlq 128 (nextGroup j)).length := by rw [length_vlq, length_vlq, hs]
    rw [vlq_of_not_le hi, vlq_of_not_le hj, append_lt_append_iff hlen, append_eq_append_iff_of_size_eq_left hlen, hlt, heq,
      group_lt_iff (Nat.le_refl _), singleton_inj, ← UInt8.toNat_inj, hbyte, hbyte, nextGroup, nextGroup]
    omega

theorem high_of_mem {b : UInt8} (h : b ∈ vlq 128 n) : 128 ≤ b.toNat := by
  have hlast {k : Nat} (h : b = UInt8.ofNat (k % 128 + 128)) : 128 ≤ b.toNat := by
    rw [h, toNat_group (Nat.le_refl _)]
    exact Nat.le_add_left 128 _
  fun_induction serializeSizeVLQ n with
  | case1 n hn =>
    rw [vlq_of_le hn, mem_singleton] at h
    exact hlast h
  | case2 n hn ih =>
    rw [vlq_of_not_le hn, mem_append, mem_singleton] at h
    exact h.elim ih hlast

/-- The first bytes of a code are those of the number that is left of it. -/
theorem vlq_take {k : Nat} (h : k < serializeSizeVLQ n) :
    ∃ tail, tail.length = k ∧ vlq 128 n = vlq 128 (nextGroup^[k] n) ++ tail := by
  induction k generalizing n with
  | zero => exact ⟨[], rfl, (append_nil _).symm⟩
  | succ k ih =>
    have hn := one_lt_size_iff.1 (Nat.lt_of_le_of_lt (Nat.succ_le_succ (Nat.zero_le k)) h)
    rw [size_of_not_le hn, Nat.succ_lt_succ_iff] at h
    obtain ⟨tail, hlen, heq⟩ := ih h
    refine ⟨tail ++ [UInt8.ofNat (n % 128 + 128)], ?_, ?_⟩
    · rw [length_append, hlen, length_singleton]
    · rw [vlq_of_not_le hn, heq, append_assoc, Function.iterate_succ_apply]

/-- The smaller number takes one byte, or its bytes before the last spell no more than as many first bytes of the greater
number do. -/
def Ordered (i j : Nat) : Prop :=
  i ≤ 0x7f ∨ nextGroup i ≤ nextGroup^[serializeSizeVLQ j - serializeSizeVLQ i + 1] j

theorem putVLQ_lt_putVLQ_iff (h : i < j) : putVLQ i < putVLQ j ↔ Ordered i j := by
  -- a byte with the high bit set is in the longer code
  have hhigh {b : UInt8} {bs : Bytes} (hb : 128 ≤ b.toNat) : [UInt8.ofNat (i % 128 + 0)] < b :: bs := by
    rw [cons_lt_cons_iff, UInt8.lt_iff_toNat_lt, toNat_group (Nat.zero_le _)]
    omega
  rw [putVLQ, putVLQ]
  by_cases hi : i ≤ 0x7f
  · refine iff_of_true ?_ (.inl hi)
    rw [vlq_of_le hi]
    by_cases hj : j ≤ 0x7f
    · rw [vlq_of_le hj, group_lt_iff (Nat.zero_le _)]
      omega
    · rw [vlq_of_not_le hj]
      cases hv : vlq 128 (nextGroup j) with
      | nil => exact absurd (length_vlq.symm.trans (congrArg length hv)) (Nat.ne_of_gt serializeSizeVLQ_pos)
      | cons b bs => exact hhigh (high_of_mem (hv ▸ mem_cons_self))
  · have hj : ¬ j ≤ 0x7f := fun hj => hi (Nat.le_trans (Nat.le_of_lt h) hj)
    have hmono := size_mono (Nat.le_of_lt h)
    rw [Ordered, or_iff_right hi, Function.iterate_succ_apply]
    rw [size_of_not_le hi, size_of_not_le hj] at *
    rw [Nat.add_sub_add_right]
    obtain ⟨tail, htail, hsplit⟩ :=
      @vlq_take (nextGroup j) _ (Nat.sub_lt serializeSizeVLQ_pos (@serializeSizeVLQ_pos (nextGroup i)))
    generalize hz : nextGroup^[_] (nextGroup j) = z at *
    have hs : serializeSizeVLQ (nextGroup i) = serializeSizeVLQ z := by
      have hsize := congrArg length hsplit
      rw [length_append, length_vlq, length_vlq] at hsize
      omega
    have hlast : nextGroup i = z → [UInt8.ofNat (i % 128 + 0)] < tail ++ [UInt8.ofNat (j % 128 + 0)] := by
      intro heq
      cases tail with
      | nil =>
        rw [← htail, length_nil, Function.iterate_zero, id, ← heq, nextGroup, nextGroup] at hz
        rw [nil_append, group_lt_iff (Nat.zero_le _)]
        omega
      | cons b bs => exact hhigh (high_of_mem (hsplit ▸ mem_append_right _ mem_cons_self))
    obtain ⟨hlt, heq⟩ := vlq_order hs
    rw [vlq_of_not_le hi, vlq_of_not_le hj, hsplit, append_assoc,
      append_lt_append_iff (by rw [length_vlq, length_vlq, hs]), hlt, heq, and_iff_left_of_imp hlast, Nat.le_iff_lt_or_eq]

end IniNode.Lib
