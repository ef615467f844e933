import Mathlib.Algebra.BigOperators.Ring.Finset
import Mathlib.Data.Nat.Digits.Lemmas
import Mathlib.Data.UInt

namespace base128

/-- The number the low seven bits of bytes denote, least significant first. -/
def value (bytes : List UInt8) : Nat :=
  Nat.ofDigits 128 (bytes.map fun b => b.toNat % 128)

/-- The high bit is set on every byte but the last. -/
def Terminated : List UInt8 → Prop
  | [] => False
  | [b] => b.toNat < 128
  | b :: bytes => 128 ≤ b.toNat ∧ Terminated bytes

/-- The shortest terminated bytes that denote a number. -/
def encode (n : Nat) : List UInt8 :=
  if n < 128 then [UInt8.ofNat n] else UInt8.ofNat (n % 128 + 128) :: encode (n / 128)

/-- The bytes of the number in front, if it ends within some bytes. -/
def first_number : Nat → List UInt8 → Option (List UInt8)
  | 0, _ => none
  | _, [] => none
  | bound + 1, b :: rest =>
    if b.toNat < 128 then some [b] else (first_number bound rest).map (b :: ·)

@[simp] theorem value_nil : value [] = 0 := rfl

@[simp] theorem value_cons (b : UInt8) (bytes : List UInt8) :
    value (b :: bytes) = b.toNat % 128 + 128 * value bytes := by
  simp [value, Nat.ofDigits_cons]

theorem value_append (front bytes : List UInt8) :
    value (front ++ bytes) = value front + 128 ^ front.length * value bytes := by
  rw [value, List.map_append, Nat.ofDigits_append, List.length_map]
  rfl

theorem value_lt (bytes : List UInt8) : value bytes < 128 ^ bytes.length := by
  have hdigits : ∀ d ∈ bytes.map (fun b => b.toNat % 128), d < 128 := by
    intro d hd
    obtain ⟨b, _, rfl⟩ := List.mem_map.mp hd
    exact Nat.mod_lt _ (by omega)
  simpa [value] using Nat.ofDigits_lt_base_pow_length (by omega : 1 < 128) hdigits

/-- The number as a sum over the bytes it is read from. -/
theorem value_take (data : List UInt8) (n : Nat) :
    value (data.take n) = ∑ i ∈ Finset.range n, (data.getD i 0).toNat % 128 * 2 ^ (7 * i) := by
  induction n generalizing data with
  | zero => simp
  | succ n ih =>
    rw [Finset.sum_range_succ']
    have hshift (i : Nat) : 2 ^ (7 * (i + 1)) = 2 ^ (7 * i) * 128 := by
      rw [Nat.mul_succ, Nat.pow_add]
    cases data with
    | nil => simp
    | cons b data =>
      rw [List.take_succ_cons, value_cons, ih data, Finset.mul_sum, Nat.add_comm]
      congr 1
      · apply Finset.sum_congr rfl
        intro i _
        rw [List.getD_cons_succ, hshift]
        ring
      · simp

theorem Terminated.cons {b : UInt8} {bytes : List UInt8} (hb : 128 ≤ b.toNat) (h : Terminated bytes) :
    Terminated (b :: bytes) := by
  cases bytes with
  | nil => exact h.elim
  | cons => exact ⟨hb, h⟩

theorem Terminated.tail {b : UInt8} {bytes : List UInt8} (hb : 128 ≤ b.toNat)
    (h : Terminated (b :: bytes)) : Terminated bytes := by
  cases bytes with
  | nil => exact absurd h (Nat.not_lt.mpr hb)
  | cons => exact h.2

/-- The high bit is set on the bytes in front of the last. -/
theorem terminated_append_singleton {front : List UInt8} {b : UInt8} :
    Terminated (front ++ [b]) ↔ (∀ c ∈ front, 128 ≤ c.toNat) ∧ b.toNat < 128 := by
  induction front with
  | nil => simp [Terminated]
  | cons c front ih =>
    rw [List.forall_mem_cons, and_assoc, ← ih]
    constructor
    · intro h
      have hc : 128 ≤ c.toNat := by
        cases front with
        | nil => exact h.1
        | cons => exact h.1
      exact ⟨hc, h.tail hc⟩
    · rintro ⟨hc, h⟩
      exact h.cons hc

theorem encode_of_lt {n : Nat} (h : n < 128) : encode n = [UInt8.ofNat n] := by
  rw [encode, if_pos h]

theorem encode_of_le {n : Nat} (h : 128 ≤ n) :
    encode n = UInt8.ofNat (n % 128 + 128) :: encode (n / 128) := by
  rw [encode, if_neg (Nat.not_lt.mpr h)]

theorem encode_terminated (n : Nat) : Terminated (encode n) := by
  induction n using encode.induct with
  | case1 n h =>
    rw [encode_of_lt h, Terminated, UInt8.toNat_ofNat']
    omega
  | case2 n h ih =>
    rw [encode_of_le (Nat.not_lt.mp h)]
    apply ih.cons
    rw [UInt8.toNat_ofNat']
    omega

theorem value_encode (n : Nat) : value (encode n) = n := by
  induction n using encode.induct with
  | case1 n h =>
    rw [encode_of_lt h, value_cons, value_nil, UInt8.toNat_ofNat']
    omega
  | case2 n h ih =>
    rw [encode_of_le (Nat.not_lt.mp h), value_cons, ih, UInt8.toNat_ofNat']
    omega

theorem length_encode_pos (n : Nat) : 0 < (encode n).length := by
  rw [encode]
  split <;> simp

theorem length_encode_le {n bound : Nat} (h : n < 128 ^ (bound + 1)) :
    (encode n).length ≤ bound + 1 := by
  induction bound generalizing n with
  | zero => simp [encode_of_lt (by simpa using h : n < 128)]
  | succ bound ih =>
    by_cases hsmall : n < 128
    · simp [encode_of_lt hsmall]
    · rw [encode_of_le (Nat.not_lt.mp hsmall), List.length_cons]
      exact Nat.succ_le_succ (ih (Nat.div_lt_of_lt_mul (by rwa [← Nat.pow_succ'])))

/-- Fewer bytes than the shortest form has denote smaller numbers only. -/
theorem pow_le_of_length_encode {n bound : Nat} (h : bound + 1 < (encode n).length) :
    128 ^ (bound + 1) ≤ n := by
  by_contra hsmall
  have := length_encode_le (Nat.not_le.mp hsmall)
  omega

theorem first_number_append {bytes : List UInt8} (h : Terminated bytes) {bound : Nat}
    (hbound : bytes.length ≤ bound) (suffix : List UInt8) :
    first_number bound (bytes ++ suffix) = some bytes := by
  induction bytes generalizing bound with
  | nil => exact h.elim
  | cons b bytes ih =>
    obtain ⟨bound, rfl⟩ : ∃ k, bound = k + 1 := ⟨bound - 1, by simp at hbound; omega⟩
    rw [List.cons_append, first_number]
    split
    · rename_i hlast
      cases bytes with
      | nil => rfl
      | cons => exact absurd hlast (Nat.not_lt.mpr h.1)
    · rename_i hmore
      rw [ih (h.tail (Nat.not_lt.mp hmore)) (by simpa using hbound), Option.map_some]

/-- What is found is a terminated number in front, no longer than allowed. -/
theorem first_number_some {bound : Nat} {data bytes : List UInt8}
    (h : first_number bound data = some bytes) :
    Terminated bytes ∧ bytes.length ≤ bound ∧ ∃ suffix, data = bytes ++ suffix := by
  induction bound generalizing data bytes with
  | zero => simp [first_number] at h
  | succ bound ih =>
    cases data with
    | nil => simp [first_number] at h
    | cons b data =>
      rw [first_number] at h
      split at h
      · rename_i hlast
        obtain rfl := Option.some.inj h
        exact ⟨hlast, by simp, data, rfl⟩
      · rename_i hmore
        obtain ⟨rest, hrest, rfl⟩ := Option.map_eq_some_iff.mp h
        obtain ⟨hterminated, hlength, suffix, rfl⟩ := ih hrest
        exact ⟨hterminated.cons (Nat.not_lt.mp hmore), by simpa using hlength, suffix, rfl⟩

/-- Where a number ends does not depend on what follows. -/
theorem Terminated.unique {first second suffix rest : List UInt8} (hfirst : Terminated first)
    (hsecond : Terminated second) (h : first ++ suffix = second ++ rest) : first = second := by
  have hfound := first_number_append hfirst (Nat.le_max_left _ second.length) suffix
  rw [h, first_number_append hsecond (Nat.le_max_right _ _) rest] at hfound
  exact (Option.some.inj hfound).symm

end base128
