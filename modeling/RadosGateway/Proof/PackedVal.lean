import RadosGateway.DirEntry
import RadosGateway.Proof.Envelope

/-!
# Packed integers

Two of the bounds between the classes are inclusive: `0x1000000` still fits the four bytes it is
given, `0x10000` does not fit its two, and comes back as zero. Every other integer comes back, and
the decoder never looks beyond the bytes it consumes. -/

namespace RadosGateway

open Text Codec Encoding

def packedValue (val : UInt64) : UInt64 := if val = 0x10000 then 0 else val

theorem local_decodePackedVal : Local decodePackedVal := by
  apply local_decodeU8.bind
  intro c
  unfold decodePackedRest
  split_ifs
  · exact local_pure _
  · exact local_decodeU8.map _
  · exact local_decodeU16.map _
  · exact local_decodeU32.map _
  · exact local_decodeU64
  · exact local_fail

theorem packedValue_eq {val v : UInt64}
    (h : v.toNat = if val.toNat = 0x10000 then 0 else val.toNat) :
    v = packedValue val := by
  apply UInt64.toNat_inj.mp
  have hval : val = 0x10000 ↔ val.toNat = 0x10000 := UInt64.toNat_inj.symm
  unfold packedValue
  rw [h]
  split_ifs <;> simp_all

theorem reads_decodePackedVal (val : UInt64) : Reads decodePackedVal (encodePackedVal val)
    (packedValue val) := by
  unfold encodePackedVal
  split_ifs with h7 h8 h16 h24
  · rw [UInt64.lt_iff_toNat_lt] at h7
    change val.toNat < 128 at h7
    have hsmall : val.toUInt8 < 0x80 := by
      rw [UInt8.lt_iff_toNat_lt, UInt64.toNat_toUInt8]
      change val.toNat % 256 < 128
      omega
    have hvalue : val.toUInt8.toUInt64 = packedValue val := by
      apply packedValue_eq
      rw [UInt8.toNat_toUInt64, UInt64.toNat_toUInt8]
      split_ifs <;> omega
    have hrest : Reads (decodePackedRest val.toUInt8) [] (packedValue val) := by
      unfold decodePackedRest
      rw [if_pos hsmall, hvalue]
      exact reads_pure _
    have h := (reads_decodeU8 val.toUInt8).bind hrest
    rwa [List.append_nil] at h
  · rw [UInt64.lt_iff_toNat_lt] at h8
    change val.toNat < 256 at h8
    have hvalue : val.toUInt8.toUInt64 = packedValue val := by
      apply packedValue_eq
      rw [UInt8.toNat_toUInt64, UInt64.toNat_toUInt8]
      split_ifs <;> omega
    have h := (reads_decodeU8 val.toUInt8).map fun v => v.toUInt64
    rw [hvalue] at h
    exact (reads_decodeU8 _).bind h
  · rw [UInt64.le_iff_toNat_le] at h16
    change val.toNat ≤ 65536 at h16
    have hvalue : val.toUInt16.toUInt64 = packedValue val := by
      apply packedValue_eq
      rw [UInt16.toNat_toUInt64, UInt64.toNat_toUInt16]
      split_ifs <;> omega
    have h := (reads_decodeU16 val.toUInt16).map fun v => v.toUInt64
    rw [hvalue] at h
    exact (reads_decodeU8 _).bind h
  · rw [UInt64.le_iff_toNat_le] at h16 h24
    change ¬ val.toNat ≤ 65536 at h16
    change val.toNat ≤ 16777216 at h24
    have hvalue : val.toUInt32.toUInt64 = packedValue val := by
      apply packedValue_eq
      rw [UInt32.toNat_toUInt64, UInt64.toNat_toUInt32]
      split_ifs <;> omega
    have h := (reads_decodeU32 val.toUInt32).map fun v => v.toUInt64
    rw [hvalue] at h
    exact (reads_decodeU8 _).bind h
  · rw [UInt64.le_iff_toNat_le] at h16
    change ¬ val.toNat ≤ 65536 at h16
    have hvalue : val = packedValue val := by
      apply packedValue_eq
      split_ifs <;> omega
    have h := reads_decodeU64 val
    conv at h => rhs; rw [hvalue]
    exact (reads_decodeU8 _).bind h

/-- An integer comes back exactly if it is not `0x10000`, and no bytes but the consumed ones count.
-/
theorem decodePackedVal_iff (val : UInt64) :
    (Reads decodePackedVal (encodePackedVal val) val ↔ val ≠ 0x10000) ∧ Local decodePackedVal := by
  refine ⟨?_, local_decodePackedVal⟩
  have hreads := reads_decodePackedVal val
  by_cases hval : val = 0x10000
  · have hzero : packedValue val = 0 := if_pos hval
    rw [hzero] at hreads
    refine iff_of_false (fun h => ?_) (not_not.mpr hval)
    have hsame := hreads.unique h
    rw [hval] at hsame
    exact absurd hsame (by decide)
  · have hself : packedValue val = val := if_neg hval
    rw [hself] at hreads
    exact iff_of_true hreads hval

/-- The value `0x10000` is packed into the two bytes of zero. -/
theorem decodePackedVal_65536 : ¬ Reads decodePackedVal (encodePackedVal 0x10000) 0x10000 := by
  intro h
  have hread := h [] []
  revert hread
  decide

end RadosGateway
