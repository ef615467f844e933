import Ipmb.Support.ShiftRegister
import Ipmb.Util.Checksum

open shift_register

namespace ipmb.checksum

/-- The feedback of the checksum register, the lowest power at the top. -/
def polynomial : BitVec 32 := 0xedb88320#32

theorem low_bit (x : BitVec 32) : x &&& 1#32 = if x.getLsbD 0 then 1#32 else 0#32 := by
  apply BitVec.eq_of_getLsbD_eq
  intro i _
  rw [BitVec.getLsbD_and, BitVec.getLsbD_one]
  cases i with
  | zero => cases h : x.getLsbD 0 <;> simp
  | succ i => cases h : x.getLsbD 0 <;> simp

/-- The mask takes the polynomial or nothing. -/
theorem toBitVec_crc32_bit (crc : UInt32) : (crc32_bit crc).toBitVec = step polynomial crc.toBitVec := by
  rw [crc32_bit, step]
  simp only [UInt32.toBitVec_xor, UInt32.toBitVec_and, UInt32.toBitVec_shiftRight, UInt32.toBitVec_sub,
    UInt32.toBitVec_ofNat]
  rw [low_bit]
  cases crc.toBitVec.getLsbD 0 with
  | false => simp
  | true => simp [polynomial]

theorem toBitVec_repeat_crc32_bit (n : Nat) (crc : UInt32) :
    (Nat.repeat crc32_bit n crc).toBitVec = (step polynomial)^[n] crc.toBitVec := by
  induction n with
  | zero => rfl
  | succ n ih => rw [Nat.repeat, toBitVec_crc32_bit, ih, Function.iterate_succ_apply']

theorem toBitVec_crc32_byte (crc : UInt32) (byte : UInt8) :
    (crc32_byte crc byte).toBitVec = feed polynomial crc.toBitVec byte.toBitVec := by
  rw [crc32_byte, toBitVec_repeat_crc32_bit, UInt32.toBitVec_xor, UInt8.toBitVec_toUInt32, feed]

theorem toBitVec_foldl_crc32_byte (bytes : List UInt8) (crc : UInt32) :
    (bytes.foldl crc32_byte crc).toBitVec =
      (bytes.map UInt8.toBitVec).foldl (feed polynomial) crc.toBitVec := by
  induction bytes generalizing crc with
  | nil => rfl
  | cons b bytes ih => rw [List.foldl_cons, ih, toBitVec_crc32_byte, List.map_cons, List.foldl_cons]

/-- Changes within four bytes in a row change the checksum. -/
theorem ipmb_crc32_burst {before bytes bytes' after : List UInt8} (hlength : bytes.length = bytes'.length)
    (hfour : bytes.length ≤ 4)
    (h : ipmb_crc32 (before ++ bytes ++ after) = ipmb_crc32 (before ++ bytes' ++ after)) : bytes = bytes' := by
  have hcrc : ∀ window, ipmb_crc32 (before ++ window ++ after) =
      (window ++ after).foldl crc32_byte (before.foldl crc32_byte 0xffffffff) ^^^ 0xffffffff := by
    intro window
    rw [List.append_assoc, ipmb_crc32, ipmb_crc32_extend, List.foldl_append, UInt32.zero_xor]
  rw [hcrc, hcrc, UInt32.xor_left_inj] at h
  have hregister := congrArg UInt32.toBitVec h
  rw [toBitVec_foldl_crc32_byte (bytes ++ after), toBitVec_foldl_crc32_byte (bytes' ++ after), List.map_append,
    List.map_append] at hregister
  have hpoly : polynomial.getLsbD (32 - 1) = true := rfl
  have hsame := burst hpoly (by simpa using hlength) (by rw [List.length_map]; omega) hregister
  exact List.map_injective_iff.mpr (fun _ _ hbyte => UInt8.toBitVec_inj.mp hbyte) hsame

end ipmb.checksum
