import Ipmb.Routing.RuleParser
import Ipmb.Support.Numeral
import Ipmb.Util.IntArith
import Mathlib.Data.List.TakeWhile

open numeral
open ipmb.rule_lexer ipmb.int_arith

namespace ipmb.rule_parser

/-- What a character counts for as a digit. -/
def digit_of (c : UInt8) : Nat := (digit_value c).getD 0

/-- The number that a text denotes which is digits in full. -/
def digits_in_full (base : Nat) (p : List UInt8) : Option Nat :=
  if p ≠ [] ∧ p.all (is_digit base) then some (value base (p.map digit_of)) else none

/-- The number that a literal without a sign denotes: hexadecimal behind `0x`,
octal from a zero on, and else decimal. -/
def magnitude (p : List UInt8) : Option Nat :=
  if p.head? = some 0x30 then
    if p[1]? = some 0x78 ∨ p[1]? = some 0x58 then digits_in_full 16 (p.drop 2)
    else digits_in_full 8 p
  else digits_in_full 10 p

/-- The integer that a text denotes which is a literal in full. -/
def int_literal (w : List UInt8) : Option Int :=
  if w.head? = some 0x2d then (magnitude w.tail).map fun n : Nat => -(n : Int)
  else if w.head? = some 0x2b then (magnitude w.tail).map fun n : Nat => (n : Int)
  else (magnitude w).map fun n : Nat => (n : Int)

/-- A literal of an `int32_t`. -/
def Int32Literal (w : List UInt8) : Prop := ∃ n ∈ int_literal w, InIntRange n

instance (w : List UInt8) : Decidable (Int32Literal w) :=
  inferInstanceAs (Decidable (∃ n ∈ int_literal w, InIntRange n))

theorem digits_in_full_eq_some_iff {base n : Nat} {p : List UInt8} :
    digits_in_full base p = some n ↔
      p ≠ [] ∧ (∀ c ∈ p, is_digit base c = true) ∧ n = value base (p.map digit_of) := by
  rw [digits_in_full]
  split
  · rename_i h
    rw [Option.some.injEq, List.all_eq_true] at *
    exact ⟨fun heq => ⟨h.1, h.2, heq.symm⟩, fun heq => heq.2.2.symm⟩
  · rename_i h
    rw [List.all_eq_true] at h
    exact iff_of_false (by simp) (fun heq => h ⟨heq.1, heq.2.1⟩)

/-- The scan of the digits ends with the text if it is digits in full. -/
theorem scan_digits_of_full {base n : Nat} {p : List UInt8} (h : digits_in_full base p = some n) :
    scan_digits base p = n := by
  obtain ⟨-, hdigits, rfl⟩ := digits_in_full_eq_some_iff.mp h
  rw [scan_digits, List.takeWhile_eq_self_iff.mpr hdigits, value, List.foldl_map]
  rfl

theorem literal_value_hex {x d : UInt8} {p : List UInt8} (hx : x = 0x78 ∨ x = 0x58)
    (hd : is_digit 16 d = true) : literal_value (0x30 :: x :: d :: p) = scan_digits 16 (d :: p) :=
  if_pos ⟨hx, hd⟩

theorem literal_value_octal {p : List UInt8} (hx : ¬(p.head? = some 0x78 ∨ p.head? = some 0x58)) :
    literal_value (0x30 :: p) = scan_digits 8 (0x30 :: p) := by
  match p, hx with
  | [], _ => rfl
  | [x], _ => rfl
  | x :: d :: p, hx =>
    refine if_neg (fun h => hx ?_)
    obtain ⟨rfl | rfl, -⟩ := h
    · exact .inl rfl
    · exact .inr rfl

theorem literal_value_decimal {p : List UInt8} (hp : p.head? ≠ some 0x30) :
    literal_value p = scan_digits 10 p := by
  rw [literal_value]
  · rintro x d tail rfl
    exact hp rfl
  · rintro tail rfl
    exact hp rfl

/-- A literal without a sign is read in full. -/
theorem literal_value_of_magnitude {n : Nat} {p : List UInt8} (h : magnitude p = some n) :
    literal_value p = n := by
  rw [magnitude] at h
  by_cases hzero : p.head? = some 0x30
  · rw [if_pos hzero] at h
    obtain ⟨p, rfl⟩ := List.head?_eq_some_iff.mp hzero
    have hx : (0x30 :: p)[1]? = p.head? := by
      rw [List.getElem?_cons_succ, List.head?_eq_getElem?]
    rw [hx] at h
    by_cases hhex : p.head? = some 0x78 ∨ p.head? = some 0x58
    · rw [if_pos hhex] at h
      obtain ⟨hne, hdigits, -⟩ := digits_in_full_eq_some_iff.mp h
      match p, hhex with
      | [], hhex => simp at hhex
      | [x], _ => exact absurd rfl hne
      | x :: d :: p, hhex =>
        simp only [List.head?_cons, Option.some.injEq] at hhex
        rw [literal_value_hex hhex (hdigits d (by simp))]
        exact scan_digits_of_full h
    · rw [if_neg hhex] at h
      rw [literal_value_octal hhex]
      exact scan_digits_of_full h
  · rw [if_neg hzero] at h
    rw [literal_value_decimal hzero]
    exact scan_digits_of_full h

theorem le_of_is_digit {base : Nat} {c : UInt8} (h : is_digit base c = true) : 0x30 ≤ c.toNat := by
  rw [is_digit, digit_value] at h
  split at h
  · rename_i d hd
    split_ifs at hd with h₀ h₁ h₂
    · exact UInt8.le_iff_toNat_le.mp h₀.1
    · have hle : 0x61 ≤ c.toNat := UInt8.le_iff_toNat_le.mp h₁.1
      omega
    · have hle : 0x41 ≤ c.toNat := UInt8.le_iff_toNat_le.mp h₂.1
      omega
  · cases h

/-- A literal without a sign starts with a digit. -/
theorem head_of_magnitude {n : Nat} {p : List UInt8} (h : magnitude p = some n) :
    ∃ c tail, p = c :: tail ∧ 0x30 ≤ c.toNat := by
  rw [magnitude] at h
  by_cases hzero : p.head? = some 0x30
  · obtain ⟨p, rfl⟩ := List.head?_eq_some_iff.mp hzero
    exact ⟨0x30, p, rfl, by decide⟩
  · rw [if_neg hzero] at h
    obtain ⟨hne, hdigits, -⟩ := digits_in_full_eq_some_iff.mp h
    obtain ⟨c, tail, rfl⟩ := List.exists_cons_of_ne_nil hne
    exact ⟨c, tail, rfl, le_of_is_digit (hdigits c List.mem_cons_self)⟩

theorem dropWhile_isspace_of_le {c : UInt8} (hc : 0x21 ≤ c.toNat) (tail : List UInt8) :
    (c :: tail).dropWhile isspace = c :: tail := by
  have hspace : isspace c = false := by
    have hblank : c ≠ 0x20 := by
      rintro rfl
      exact absurd hc (by decide)
    have hcontrol : ¬c ≤ 0x0d := by
      intro h
      have hle : c.toNat ≤ 0x0d := UInt8.le_iff_toNat_le.mp h
      omega
    simp [isspace, hblank, hcontrol]
  rw [List.dropWhile_cons, hspace]
  rfl

/-- `strtol` reads a literal in full, up to its bounds. -/
theorem strtol_of_int_literal {n : Int} {w : List UInt8} (h : int_literal w = some n) :
    strtol w = max LONG_MIN (min LONG_MAX n) := by
  have hmin : LONG_MIN < 0 := by decide
  have hmax : 0 < LONG_MAX := by decide
  rw [int_literal] at h
  split_ifs at h with hminus hplus
  · obtain ⟨k, hk, rfl⟩ := Option.map_eq_some_iff.mp h
    obtain ⟨p, rfl⟩ := List.head?_eq_some_iff.mp hminus
    rw [List.tail_cons] at hk
    have hstrtol : strtol (0x2d :: p) = max LONG_MIN (-(literal_value p : Int)) := rfl
    rw [hstrtol, literal_value_of_magnitude hk, min_eq_right (by omega)]
  · obtain ⟨k, hk, rfl⟩ := Option.map_eq_some_iff.mp h
    obtain ⟨p, rfl⟩ := List.head?_eq_some_iff.mp hplus
    rw [List.tail_cons] at hk
    have hstrtol : strtol (0x2b :: p) = min LONG_MAX (literal_value p : Int) := rfl
    rw [hstrtol, literal_value_of_magnitude hk, max_eq_right (by omega)]
  · obtain ⟨k, hk, rfl⟩ := Option.map_eq_some_iff.mp h
    obtain ⟨c, tail, rfl, hc⟩ := head_of_magnitude hk
    have hstrtol : strtol (c :: tail) = min LONG_MAX (literal_value (c :: tail) : Int) := by
      rw [strtol, dropWhile_isspace_of_le (by omega)]
      split
      · next heq => exact absurd (by rw [(List.cons.inj heq).1]; rfl) hminus
      · next heq => exact absurd (by rw [(List.cons.inj heq).1]; rfl) hplus
      · rfl
    rw [hstrtol, literal_value_of_magnitude hk, max_eq_right (by omega)]

/-- A literal of an `int32_t` is read as what it denotes. -/
theorem int32_of_int_literal {n : Int} {w : List UInt8} (h : int_literal w = some n) (hrange : InIntRange n) :
    int32_of_long (strtol w) = Int32.ofInt n := by
  have hmin : LONG_MIN ≤ n := le_trans (by decide) hrange.1
  have hmax : n ≤ LONG_MAX := le_of_lt (lt_of_lt_of_le hrange.2 (by decide))
  rw [strtol_of_int_literal h, min_eq_right hmax, max_eq_right hmin, int32_of_long]

end ipmb.rule_parser
