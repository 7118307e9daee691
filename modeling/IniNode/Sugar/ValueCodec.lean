import IniNode.Sugar.RangeReads
/-!
# The values of the unspent table

`AddressUnspentValue.Encode` and the reader of the same package. A script stands behind its length; the writer spends
four bytes on a length from 253 to 65535, where CompactSize and the reader have two.
-/

open IniNode.Lib List Option

namespace IniNode.Sugar

/-- `enc.compactSize`. -/
def encCompactSize (n : Nat) : Bytes :=
  if n < 253 then [UInt8.ofNat n]
  else if n ≤ 0xffff then 0xfd :: u32 n
  else if n ≤ 0xffffffff then 0xfe :: u32 n
  else 0xff :: toLE 8 n

/-- `enc.script`. -/
def encScript (s : Bytes) : Bytes := encCompactSize s.length ++ s

def AddressUnspentValue.encode (v : AddressUnspentValue) : Bytes :=
  i64 v.satoshis ++ (encScript v.script ++ i32 v.blockHeight)

/-- `dec.u16`, `dec.u32` and `dec.u64`. -/
def decLE (w : Nat) (b : Bytes) : Option (Nat × Bytes) := (dec w b).map fun r => (ofLE r.1, r.2)

/-- `dec.i32` and `dec.i64`. -/
def decSigned (w : Nat) (b : Bytes) : Option (Int × Bytes) := (decLE w b).map fun r => (signed (8 * w) r.1, r.2)

/-- `dec.compactSize`. -/
def decCompactSize : Bytes → Option (Nat × Bytes)
  | [] => none
  | first :: b =>
    if first = 0xfd then decLE 2 b
    else if first = 0xfe then decLE 4 b
    else if first = 0xff then decLE 8 b
    else some (first.toNat, b)

/-- `dec.script`. -/
def decScript (b : Bytes) : Option (Bytes × Bytes) := (decCompactSize b).bind fun r => dec r.1 r.2

/-- The three reads of a value, with the bytes they leave. -/
def decValue (b : Bytes) : Option (AddressUnspentValue × Bytes) := do
  let (satoshis, b) ← decSigned 8 b
  let (script, b) ← decScript b
  let (blockHeight, b) ← decSigned 4 b
  return (⟨satoshis, script, blockHeight⟩, b)

/-- CompactSize, as the Bitcoin wire format has it. -/
def compactSize (n : Nat) : Bytes :=
  if n < 253 then [UInt8.ofNat n]
  else if n ≤ 0xffff then 0xfd :: toLE 2 n
  else if n ≤ 0xffffffff then 0xfe :: toLE 4 n
  else 0xff :: toLE 8 n

variable {n : Nat} {v : AddressUnspentValue}

theorem decLE_toLE {w : Nat} (h : n < 256 ^ w) (rest : Bytes) : decLE w (toLE w n ++ rest) = some (n, rest) := by
  rw [decLE, dec_append (length_toLE w n), map_some, ofLE_toLE h]

theorem decCompactSize_compactSize (h : n < 2 ^ 32) (rest : Bytes) :
    decCompactSize (compactSize n ++ rest) = some (n, rest) := by
  unfold compactSize
  split
  next hn =>
    have hbyte : (UInt8.ofNat n).toNat = n := by rw [UInt8.toNat_ofNat']; omega
    have hne : ∀ m : UInt8, 253 ≤ m.toNat → UInt8.ofNat n ≠ m := by rintro _ hm rfl; omega
    simp [decCompactSize, hbyte, hne 0xfd (by decide), hne 0xfe (by decide), hne 0xff (by decide)]
  next =>
    split
    · exact decLE_toLE (w := 2) (by omega) rest
    · rw [if_pos (by omega)]
      exact decLE_toLE (w := 4) (by omega) rest

theorem encCompactSize_eq_iff : encCompactSize n = compactSize n ↔ ¬ (253 ≤ n ∧ n ≤ 0xffff) := by
  unfold encCompactSize compactSize
  split_ifs with h h'
  · exact iff_of_true rfl (by omega)
  · refine iff_of_false (fun he => ?_) (by omega)
    have := congrArg length he
    simp [u32] at this
  · exact iff_of_true rfl (by omega)
  · exact iff_of_true rfl (by omega)

/-- Between 253 and 65535 two bytes stand behind the length that the reader takes for bytes of the script. -/
theorem encCompactSize_mid (h : 253 ≤ n) (h' : n ≤ 0xffff) :
    encCompactSize n = compactSize n ++ toLE 2 (n / 256 / 256) := by
  rw [encCompactSize, compactSize, if_neg (by omega), if_pos h', if_neg (by omega), if_pos h']
  rfl

theorem decValue_eq (hsat : -2 ^ 63 ≤ v.satoshis ∧ v.satoshis < 2 ^ 63) (hn : n < 2 ^ 32) (b : Bytes) :
    decValue (i64 v.satoshis ++ (compactSize n ++ b)) =
      (dec n b).bind fun r => (decSigned 4 r.2).map fun q => (⟨v.satoshis, r.1, q.1⟩, q.2) := by
  have hread : decSigned 8 (i64 v.satoshis ++ (compactSize n ++ b)) = some (v.satoshis, compactSize n ++ b) := by
    rw [decSigned, decLE, i64, dec_append (length_toLE 8 _), map_some, map_some, ← i64, signed_i64 hsat.1 hsat.2]
  simp [decValue, hread, decScript, decCompactSize_compactSize hn, Option.map_eq_bind]

/-- Encode can be read back, and writes a CompactSize, exactly for the scripts whose length is not in that range. -/
theorem encode_read_back_iff (hsat : -2 ^ 63 ≤ v.satoshis ∧ v.satoshis < 2 ^ 63)
    (hheight : -2 ^ 31 ≤ v.blockHeight ∧ v.blockHeight < 2 ^ 31) (hlen : v.script.length < 2 ^ 32) :
    (decValue v.encode = some (v, []) ↔ ¬ (253 ≤ v.script.length ∧ v.script.length ≤ 0xffff)) ∧
      (encCompactSize v.script.length = compactSize v.script.length ↔
        ¬ (253 ≤ v.script.length ∧ v.script.length ≤ 0xffff)) := by
  refine ⟨⟨fun hread ⟨hlow, hhigh⟩ => ?_, fun hnot => ?_⟩, encCompactSize_eq_iff⟩
  · rw [AddressUnspentValue.encode, encScript, encCompactSize_mid hlow hhigh, append_assoc, append_assoc,
      decValue_eq hsat hlen, dec, if_neg (by simp; omega)] at hread
    -- the four bytes of the height are read two bytes early
    have hleft := congrArg (fun r => r.map fun r => r.2.length) hread
    simp [decSigned, decLE, dec] at hleft
  · have hheight' : decSigned 4 (i32 v.blockHeight) = some (v.blockHeight, []) := by
      have hdec := dec_append (length_i32 v.blockHeight) []
      rw [append_nil] at hdec
      rw [decSigned, decLE, hdec, map_some, map_some, signed_i32 hheight.1 hheight.2]
    rw [AddressUnspentValue.encode, encScript, encCompactSize_eq_iff.2 hnot, append_assoc, decValue_eq hsat hlen,
      dec_append rfl, bind_some, hheight', map_some]

theorem encode_read_back_short : decValue (⟨5, [0x51], 7⟩ : AddressUnspentValue).encode =
    some (⟨5, [0x51], 7⟩, []) :=
  (encode_read_back_iff (v := ⟨5, [0x51], 7⟩) (by decide) (by decide) (by decide)).1.2 (by decide)

/-- The shortest script that is not read back. -/
theorem script_shifted : decValue (⟨5, replicate 253 0x51, 7⟩ : AddressUnspentValue).encode =
    some (⟨5, 0 :: 0 :: replicate 251 0x51, 0x75151⟩, [0, 0]) := by
  decide +kernel

end IniNode.Sugar
