import Ipmb.Support.LittleEndian
import Mathlib.Algebra.BigOperators.Ring.Finset
import Mathlib.Algebra.Ring.Nat
import Mathlib.Data.Nat.Bitwise

namespace bit_fields

/-- The bits of a number from an offset on, least significant first. -/
def field (n offset width : Nat) : Nat :=
  n / 2 ^ offset % 2 ^ width

/-- Fields of given widths, one behind the other. -/
def fields (n : Nat) : Nat → List Nat → List Nat
  | _, [] => []
  | offset, width :: widths => field n offset width :: fields n (offset + width) widths

@[simp] theorem field_zero (n offset : Nat) : field n offset 0 = 0 :=
  Nat.mod_one _

theorem field_lt (n offset width : Nat) : field n offset width < 2 ^ width :=
  Nat.mod_lt _ (Nat.two_pow_pos width)

@[simp] theorem length_fields (n offset : Nat) (widths : List Nat) :
    (fields n offset widths).length = widths.length := by
  induction widths generalizing offset with
  | nil => rfl
  | cons width widths ih => simp [fields, ih]

/-- A field is a narrower one and the bits behind that. -/
theorem field_add (n offset low high : Nat) :
    field n offset (low + high) = field n offset low + 2 ^ low * field n (offset + low) high := by
  rw [field, field, field, Nat.pow_add, Nat.mod_mul, Nat.pow_add 2 offset low, Nat.div_div_eq_div_mul]

/-- One bit more. -/
theorem field_succ (n offset width : Nat) :
    field n offset (width + 1) = field n offset width ||| (n.testBit (offset + width)).toNat <<< width := by
  have hbit : field n (offset + width) 1 = (n.testBit (offset + width)).toNat := by
    rw [field, pow_one, Nat.toNat_testBit]
  rw [little_endian.or_shiftLeft _ _ _ (field_lt n offset width), field_add, hbit]

/-- Fields placed where they start make up the field they are read from. -/
theorem sum_fields (n offset : Nat) (widths : List Nat) :
    ∑ k ∈ Finset.range widths.length, (fields n offset widths).getD k 0 * 2 ^ (widths.take k).sum =
      field n offset widths.sum := by
  induction widths generalizing offset with
  | nil => simp
  | cons width widths ih =>
    rw [List.length_cons, Finset.sum_range_succ', List.sum_cons, field_add, ← ih, Finset.mul_sum,
      Nat.add_comm]
    congr 1
    · simp [fields]
    · apply Finset.sum_congr rfl
      intro k _
      rw [fields, List.getD_cons_succ, List.take_succ_cons, List.sum_cons, Nat.pow_add]
      ring

/-- A field as wide as the number is the number. -/
theorem field_of_lt {n width : Nat} (h : n < 2 ^ width) : field n 0 width = n := by
  rw [field, pow_zero, Nat.div_one, Nat.mod_eq_of_lt h]

/-- The bits of a byte string are those of its bytes. -/
theorem testBit_value (bytes : List UInt8) (p : Nat) :
    (little_endian.value bytes).testBit p = (bytes.getD (p / 8) 0).toNat.testBit (p % 8) := by
  induction bytes generalizing p with
  | nil => simp
  | cons b bytes ih =>
    have hsplit : little_endian.value (b :: bytes) = 2 ^ 8 * little_endian.value bytes + b.toNat := by
      simp [Nat.add_comm]
    rw [hsplit, Nat.testBit_two_pow_mul_add _ b.toNat_lt]
    by_cases hp : p < 8
    · rw [if_pos hp, Nat.div_eq_of_lt hp, Nat.mod_eq_of_lt hp, List.getD_cons_zero]
    · obtain ⟨q, rfl⟩ := Nat.exists_eq_add_of_le' (Nat.not_lt.mp hp)
      rw [if_neg hp, Nat.add_sub_cancel, ih, Nat.add_div_right q (by omega), List.getD_cons_succ,
        Nat.add_mod_right]

/-- The number of a byte string as a sum. -/
theorem value_eq_sum (bytes : List UInt8) :
    little_endian.value bytes = ∑ i ∈ Finset.range bytes.length, (bytes.getD i 0).toNat * 256 ^ i := by
  induction bytes with
  | nil => rfl
  | cons b bytes ih =>
    rw [little_endian.value_cons, List.length_cons, Finset.sum_range_succ', ih, Finset.mul_sum,
      Nat.add_comm]
    congr 1
    · apply Finset.sum_congr rfl
      intro i _
      rw [List.getD_cons_succ, Nat.pow_succ]
      ring
    · simp

end bit_fields
