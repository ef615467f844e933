import Ipmb.Routing.RuleText
import Mathlib.Data.Nat.Digits.Lemmas

open numeral
open ipmb.rule_lexer ipmb.int_arith

namespace ipmb.rule_parser

/-- A number in decimal, without leading zeros. -/
def decimal_nat (n : Nat) : List UInt8 :=
  if n = 0 then [0x30] else (Nat.digits 10 n).reverse.map fun d => UInt8.ofNat (0x30 + d)

def decimal (n : Int) : List UInt8 :=
  if n < 0 then 0x2d :: decimal_nat n.natAbs else decimal_nat n.natAbs

theorem digit_char {d : Nat} (hd : d < 10) :
    (0x30 ≤ UInt8.ofNat (0x30 + d) ∧ UInt8.ofNat (0x30 + d) ≤ 0x39) ∧ digit_of (UInt8.ofNat (0x30 + d)) = d := by
  revert d
  decide

theorem decimal_nat_chars {n : Nat} {c : UInt8} (hc : c ∈ decimal_nat n) : 0x30 ≤ c ∧ c ≤ 0x39 := by
  rw [decimal_nat] at hc
  split at hc
  · rw [List.mem_singleton.mp hc]
    decide
  · obtain ⟨d, hd, rfl⟩ := List.mem_map.mp hc
    exact (digit_char (Nat.digits_lt_base (by decide) (List.mem_reverse.mp hd))).1

theorem length_decimal_nat {n : Nat} (hn : n < 10 ^ 10) : (decimal_nat n).length ≤ 10 := by
  rw [decimal_nat]
  split
  · decide
  · rw [List.length_map, List.length_reverse]
    exact (Nat.digits_length_le_iff (by decide) n).mpr hn

/-- A decimal number is a literal in full. -/
theorem magnitude_decimal_nat (n : Nat) : magnitude (decimal_nat n) = some n := by
  by_cases hn : n = 0
  · subst hn
    decide
  · have hne : Nat.digits 10 n ≠ [] := Nat.digits_ne_nil_iff_ne_zero.mpr hn
    have htext : decimal_nat n = (Nat.digits 10 n).reverse.map fun d => UInt8.ofNat (0x30 + d) := if_neg hn
    have hlt : ∀ d ∈ (Nat.digits 10 n).reverse, d < 10 :=
      fun d hd => Nat.digits_lt_base (by decide) (List.mem_reverse.mp hd)
    have hdigits : (decimal_nat n).map digit_of = (Nat.digits 10 n).reverse := by
      rw [htext, List.map_map]
      exact (List.map_congr_left fun d hd => (digit_char (hlt d hd)).2).trans (List.map_id _)
    have hhead : (decimal_nat n).head? ≠ some 0x30 := by
      -- the first digit is the last one of `Nat.digits`
      intro hzero
      have hfirst : (Nat.digits 10 n).reverse.head? = some 0 := by
        rw [← hdigits, List.head?_map, hzero]
        rfl
      rw [List.head?_reverse, List.getLast?_eq_some_getLast hne, Option.some.injEq] at hfirst
      exact Nat.getLast_digit_ne_zero 10 hn hfirst
    have hsome : decimal_nat n ≠ [] := by
      rw [htext]
      simpa using hne
    rw [magnitude_digits hsome (fun c hc => decimal_nat_chars hc) hhead, hdigits, value_reverse, Nat.ofDigits_digits]

theorem int_literal_decimal (n : Int) : int_literal (decimal n) = some n := by
  rw [decimal]
  split
  · rw [int_literal, if_pos (by rfl), List.tail_cons, magnitude_decimal_nat, Option.map_some]
    congr 1
    omega
  · rw [int_literal_digits (fun c hc => decimal_nat_chars hc) (magnitude_decimal_nat n.natAbs)]
    congr 1
    omega

/-- The decimals of an `int` fit a token. -/
theorem isWord_decimal {n : Int} (hn : InIntRange n) : IsWord (decimal n) := by
  have hrange : n.natAbs < 10 ^ 10 := by
    have hlow := hn.1
    have hhigh := hn.2
    omega
  have hlength := length_decimal_nat hrange
  have hchars : ∀ c ∈ decimal_nat n.natAbs, is_word c = true := fun c hc => is_word_digit (decimal_nat_chars hc)
  have hne : decimal_nat n.natAbs ≠ [] := by
    intro hnil
    have hnone := magnitude_decimal_nat n.natAbs
    rw [hnil] at hnone
    cases hnone
  rw [decimal]
  split
  · refine ⟨List.cons_ne_nil _ _, ?_, ?_⟩
    · rw [List.length_cons]
      omega
    · intro c hc
      obtain rfl | hc := List.mem_cons.mp hc
      · decide
      · exact hchars c hc
  · exact ⟨hne, by omega, hchars⟩

/-- The decimals of an `int32_t` are read as it. -/
theorem int32_of_decimal (v : Int32) : int32_of_long (strtol (decimal v.toInt)) = v := by
  rw [int32_of_int_literal (int_literal_decimal v.toInt) (inIntRange_toInt v), Int32.ofInt_toInt]

end ipmb.rule_parser
