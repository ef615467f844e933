import Mathlib.Data.Nat.Digits.Lemmas
import Mathlib.Data.UInt

namespace little_endian

/-- The natural number a byte string denotes, least significant byte first. -/
def value (bytes : List UInt8) : Nat :=
  Nat.ofDigits 256 (bytes.map UInt8.toNat)

/-- The `width` low bytes of a natural number, least significant first. -/
def bytesOf : Nat → Nat → List UInt8
  | 0, _ => []
  | width + 1, n => UInt8.ofNat (n % 256) :: bytesOf width (n / 256)

/-- Bits above those of a number are added to it. -/
theorem or_shiftLeft (low high shift : Nat) (hlow : low < 2 ^ shift) :
    low ||| high <<< shift = low + 2 ^ shift * high := by
  rw [Nat.or_comm, ← Nat.shiftLeft_add_eq_or_of_lt hlow, Nat.shiftLeft_eq, Nat.add_comm, Nat.mul_comm]

@[simp] theorem value_nil : value [] = 0 := rfl

@[simp] theorem value_cons (b : UInt8) (bytes : List UInt8) :
    value (b :: bytes) = b.toNat + 256 * value bytes := by
  simp [value, Nat.ofDigits_cons]

@[simp] theorem length_bytesOf (width n : Nat) : (bytesOf width n).length = width := by
  induction width generalizing n with
  | zero => rfl
  | succ width ih => simp [bytesOf, ih]

theorem value_lt (bytes : List UInt8) : value bytes < 256 ^ bytes.length := by
  have hdigits : ∀ d ∈ bytes.map UInt8.toNat, d < 256 := by
    intro d hd
    obtain ⟨b, _, rfl⟩ := List.mem_map.mp hd
    exact b.toNat_lt
  simpa [value] using Nat.ofDigits_lt_base_pow_length (by decide : 1 < 256) hdigits

/-- Byte strings of one length denote different numbers. -/
theorem value_inj {first second : List UInt8} (hlength : first.length = second.length)
    (hvalue : value first = value second) : first = second := by
  have hdigits : ∀ bytes : List UInt8, ∀ d ∈ bytes.map UInt8.toNat, d < 256 := by
    intro bytes d hd
    obtain ⟨b, _, rfl⟩ := List.mem_map.mp hd
    exact b.toNat_lt
  have hmap := Nat.ofDigits_inj_of_len_eq (by decide : 1 < 256) (by simpa using hlength)
    (hdigits first) (hdigits second) hvalue
  exact List.map_injective_iff.mpr (fun _ _ h => UInt8.toNat_inj.mp h) hmap

theorem value_bytesOf (width n : Nat) : value (bytesOf width n) = n % 256 ^ width := by
  induction width generalizing n with
  | zero => simp [bytesOf, Nat.mod_one]
  | succ width ih =>
    have hbyte : (UInt8.ofNat (n % 256)).toNat = n % 256 := by
      rw [UInt8.toNat_ofNat']
      exact Nat.mod_eq_of_lt (Nat.mod_lt _ (by decide))
    rw [bytesOf, value_cons, ih, hbyte, pow_succ', Nat.mod_mul]

/-- A byte string is recovered from its length and the number it denotes. -/
theorem bytesOf_value (bytes : List UInt8) : bytesOf bytes.length (value bytes) = bytes := by
  apply value_inj (length_bytesOf _ _)
  rw [value_bytesOf]
  exact Nat.mod_eq_of_lt (value_lt bytes)

end little_endian
