import IniNode.Lib.Vlq
import IniNode.Wire
/-!
# Keys of the utxo set

An output's row stands under the hash of its transaction and its index, written as a variable-length quantity. The numbers
come in order only among keys of one length: a longer key can be smaller in its first bytes.
-/

open IniNode.Lib List

namespace IniNode

def outpointKey (outpoint : OutPoint) : Bytes := toLE 32 outpoint.hash ++ putVLQ outpoint.index

def deserializeOutpointKey (key : Bytes) : Option OutPoint :=
  if key.length < 32 then none
  else
    let (index, numBytes) := deserializeVLQ (key.drop 32)
    if numBytes = 0 ∨ 32 + numBytes ≠ key.length then none
    else some ⟨ofLE (key.take 32), index % 2 ^ 32⟩

/-- The fields of the source's type: 32 bytes and a `uint32`. -/
def OutPoint.Fits (op : OutPoint) : Prop := op.hash < 256 ^ 32 ∧ op.index < 2 ^ 32
deriving Decidable

theorem deserializeOutpointKey_outpointKey {op : OutPoint} (h : op.Fits) :
    deserializeOutpointKey (outpointKey op) = some op := by
  have hlen : (outpointKey op).length = 32 + serializeSizeVLQ op.index := by
    rw [outpointKey, length_append, length_toLE, putVLQ, length_vlq]
  have hsize := @serializeSizeVLQ_pos op.index
  have hdrop : (outpointKey op).drop 32 = putVLQ op.index := drop_left' (length_toLE 32 op.hash)
  have htake : (outpointKey op).take 32 = toLE 32 op.hash := take_left' (length_toLE 32 op.hash)
  rw [deserializeOutpointKey, if_neg (by omega), hdrop, deserializeVLQ_putVLQ (Nat.lt_trans h.2 (by decide)), htake,
    ofLE_toLE h.1]
  dsimp only
  rw [if_neg (by omega), Nat.mod_eq_of_lt h.2]

/-- Keys determine their outpoints, and are in the order of the indexes where these are ordered as bytes. -/
theorem outpoint_keys {a b : OutPoint} (ha : a.Fits) (hb : b.Fits) :
    deserializeOutpointKey (outpointKey a) = some a ∧ (outpointKey a = outpointKey b → a = b) ∧
      (a.hash = b.hash → a.index < b.index → (outpointKey a < outpointKey b ↔ Ordered a.index b.index)) := by
  refine ⟨deserializeOutpointKey_outpointKey ha, fun hkey => ?_, fun hhash hlt => ?_⟩
  · have hread := congrArg deserializeOutpointKey hkey
    rw [deserializeOutpointKey_outpointKey ha, deserializeOutpointKey_outpointKey hb] at hread
    exact Option.some.inj hread
  · rw [outpointKey, outpointKey, hhash, append_lt_append_iff rfl, or_iff_right (List.lt_irrefl _),
      and_iff_right rfl, putVLQ_lt_putVLQ_iff hlt]

theorem outpoint_keys_two_lengths : outpointKey ⟨1, 5⟩ < outpointKey ⟨1, 300⟩ :=
  ((@outpoint_keys ⟨1, 5⟩ ⟨1, 300⟩ (by decide) (by decide)).2.2 rfl (by decide)).2 (.inl (by decide))

/-- The index 16512 takes three bytes, `80 80 00`, and comes before 256, which is `81 00`. -/
theorem outpoint_keys_out_of_order : outpointKey ⟨1, 16512⟩ < outpointKey ⟨1, 256⟩ := by
  have hlong : putVLQ 16512 = [0x80, 0x80, 0x00] := by simp [putVLQ, vlq, vlqGroups, nextGroup]
  have hshort : putVLQ 256 = [0x81, 0x00] := by simp [putVLQ, vlq, vlqGroups, nextGroup]
  rw [outpointKey, outpointKey, hlong, hshort]
  decide

end IniNode
