import Ipmb.Util.ChecksumBurst

open shift_register

namespace ipmb.checksum

def crc32_probe_table : Vector UInt32 16 :=
  #v[0x00000000, 0x77073096, 0xee0e612c, 0x990951ba,
    0x076dc419, 0x706af48f, 0xe963a535, 0x9e6495a3,
    0x0edb8832, 0x79dcb8a4, 0xe0d5e91e, 0x97d2d988,
    0x09b64c2b, 0x7eb17cbd, 0xe7b82d07, 0x90bf1d91]

def ipmb_crc32_probe_value (index : Nat) : UInt32 :=
  crc32_probe_table.get ⟨index &&& 15, Nat.and_lt_two_pow index (by decide : 15 < 2 ^ 4)⟩

/-- The entry of the whole table that a byte selects. -/
def table_index (crc : UInt32) (byte : UInt8) : UInt8 := (crc ^^^ byte.toUInt32).toUInt8

/-- The table holds the registers that the bytes up to 15 leave. -/
theorem ipmb_crc32_probe_value_eq (index : Nat) :
    ipmb_crc32_probe_value index = crc32_byte 0 (UInt8.ofNat (index &&& 15)) := by
  have hentries : ∀ i : Fin 16, crc32_probe_table.get i = crc32_byte 0 (UInt8.ofNat i) := by decide
  exact hentries _

/-- A byte by the whole table. -/
theorem crc32_byte_eq (crc : UInt32) (byte : UInt8) :
    crc32_byte crc byte = (crc >>> 8) ^^^ crc32_byte 0 (table_index crc byte) := by
  have hshift : (crc.toBitVec ^^^ byte.toBitVec.setWidth 32) >>> 8 = crc.toBitVec >>> 8 := by
    apply BitVec.eq_of_getLsbD_eq
    intro i _
    simp
  apply UInt32.toBitVec_inj.mp
  rw [toBitVec_crc32_byte, UInt32.toBitVec_xor, toBitVec_crc32_byte, feed_eq_table, hshift]
  rfl

/-- Bytes are told apart by the registers that they leave. -/
theorem crc32_byte_injective (crc : UInt32) : Function.Injective (crc32_byte crc) := by
  intro byte byte' h
  have hsame := congrArg UInt32.toBitVec h
  rw [toBitVec_crc32_byte, toBitVec_crc32_byte] at hsame
  exact UInt8.toBitVec_inj.mp (feed_injective rfl (by decide) _ hsame)

/-- A byte by the table comes to the same as bit by bit exactly when the table has the
entry for it. -/
theorem crc32_byte_by_probe_iff (crc : UInt32) (byte : UInt8) :
    (crc >>> 8) ^^^ ipmb_crc32_probe_value (table_index crc byte).toNat = crc32_byte crc byte ↔
      (table_index crc byte).toNat < 16 := by
  rw [crc32_byte_eq, UInt32.xor_right_inj, ipmb_crc32_probe_value_eq, (crc32_byte_injective 0).eq_iff]
  generalize table_index crc byte = index
  have hmask : index.toNat &&& 15 = index.toNat % 16 := Nat.and_two_pow_sub_one_eq_mod _ 4
  rw [hmask, ← UInt8.toNat_inj, UInt8.toNat_ofNat']
  omega

end ipmb.checksum
