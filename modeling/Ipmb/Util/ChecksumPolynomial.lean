import Ipmb.Support.PolynomialRegister
import Ipmb.Util.ChecksumBurst

open Polynomial shift_register

namespace ipmb.checksum

noncomputable section

/-- The bits of bytes as coefficients from the highest power down, each byte
with its lowest bit first. -/
def bits_polynomial (b : List UInt8) : (ZMod 2)[X] :=
  ∑ j ∈ Finset.range (8 * b.length),
    if (b.getD (j / 8) 0).toNat.testBit (j % 8) then X ^ (8 * b.length - 1 - j) else 0

def generator : (ZMod 2)[X] :=
  X ^ 32 + X ^ 26 + X ^ 23 + X ^ 22 + X ^ 16 + X ^ 12 + X ^ 11 + X ^ 10 + X ^ 8 + X ^ 7 + X ^ 5 + X ^ 4 +
    X ^ 2 + X + 1

/-- What division leaves of the bits behind 32 ones. -/
def crc_remainder (b : List UInt8) : (ZMod 2)[X] :=
  (bits_polynomial b * X ^ 32 + (∑ i ∈ Finset.range 32, X ^ i) * X ^ (8 * b.length)) %ₘ generator

/-- The coefficients of the powers below 32, the highest at the low end. -/
def bit_reversed (p : (ZMod 2)[X]) : UInt32 := UInt32.ofBitVec (of_poly 32 p)

theorem divisor_polynomial : divisor polynomial = generator := by
  simp [divisor, generator, poly_of, polynomial, Finset.sum_range_succ, coefficient, monomial_one_right_eq_X_pow]
  ring

theorem poly_of_ones : poly_of (0xffffffff#32) = ∑ i ∈ Finset.range 32, X ^ i := by
  apply Finset.sum_congr rfl
  intro i hi
  have hones : (0xffffffff#32) = BitVec.allOnes 32 := by decide
  have hbit : (0xffffffff#32).getMsbD i = true := by
    rw [hones, BitVec.getMsbD_allOnes, decide_eq_true (Finset.mem_range.mp hi)]
  rw [hbit, coefficient, if_pos rfl, monomial_one_right_eq_X_pow]

/-- The bits of a byte stand at the powers below 8. -/
theorem poly_of_byte (byte : UInt8) :
    poly_of byte.toBitVec = ∑ j ∈ Finset.range 8, if byte.toNat.testBit j then X ^ (7 - j) else 0 := by
  rw [poly_of, ← Finset.sum_range_reflect]
  apply Finset.sum_congr rfl
  intro j hj
  have hj := Finset.mem_range.mp hj
  have hbit : byte.toBitVec.getMsbD (8 - 1 - j) = byte.toNat.testBit j := by
    have hindex : 8 - 1 - (8 - 1 - j) = j := by omega
    have hin : 8 - 1 - j < 8 := by omega
    rw [BitVec.getMsbD_eq_getLsbD, hindex, decide_eq_true hin, Bool.true_and]
    rfl
  rw [hbit]
  cases byte.toNat.testBit j with
  | false => simp [coefficient]
  | true => simp [coefficient, monomial_one_right_eq_X_pow]

theorem bits_polynomial_eq (b : List UInt8) : bits_polynomial b = message (b.map UInt8.toBitVec) := by
  induction b with
  | nil => simp [bits_polynomial, message]
  | cons byte b ih =>
    rw [List.map_cons, message, List.length_map, ← ih, bits_polynomial, bits_polynomial, List.length_cons,
      Nat.mul_succ, Nat.add_comm, Finset.sum_range_add]
    congr 1
    · rw [poly_of_byte, Finset.mul_sum]
      apply Finset.sum_congr rfl
      intro j hj
      have hj := Finset.mem_range.mp hj
      have hexponent : 8 + 8 * b.length - 1 - j = 8 * b.length + (7 - j) := by omega
      rw [Nat.div_eq_of_lt hj, Nat.mod_eq_of_lt hj, List.getD_cons_zero, hexponent, mul_ite, mul_zero, pow_add]
    · apply Finset.sum_congr rfl
      intro j _
      have hexponent : 8 + 8 * b.length - 1 - (8 + j) = 8 * b.length - 1 - j := by omega
      have hdiv : (8 + j) / 8 = j / 8 + 1 := by omega
      rw [hexponent, hdiv, Nat.add_mod_left, List.getD_cons_succ]

/-- The checksum is the remainder, reversed and complemented. -/
theorem ipmb_crc32_eq_remainder (b : List UInt8) : ipmb_crc32 b = ~~~bit_reversed (crc_remainder b) := by
  have hregister : crc_remainder b = poly_of (b.foldl crc32_byte 0xffffffff).toBitVec := by
    have hdivides := poly_of_foldl_feed polynomial (0xffffffff#32) (b.map UInt8.toBitVec) (by omega)
    rw [divisor_polynomial, poly_of_ones, ← bits_polynomial_eq, List.length_map] at hdivides
    rw [toBitVec_foldl_crc32_byte, crc_remainder, mul_comm (bits_polynomial b), mul_comm (∑ i ∈ _, _), add_comm]
    exact hdivides.symm
  rw [hregister, bit_reversed, of_poly_poly_of, ipmb_crc32, ipmb_crc32_extend, UInt32.zero_xor]
  exact UInt32.xor_neg_one

example : ipmb_crc32 [0x31, 0x32, 0x33, 0x34, 0x35, 0x36, 0x37, 0x38, 0x39] = 0xcbf43926 := by decide +kernel

end

end ipmb.checksum
