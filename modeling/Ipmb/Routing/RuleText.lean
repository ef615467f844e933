import Ipmb.Routing.IntLiteral
import Ipmb.Routing.RuleWords

open numeral
open ipmb.rule_lexer

namespace ipmb.rule_lexer

/-- A token the lexer keeps whole. -/
structure IsWord (w : List UInt8) : Prop where
  nonempty : w ≠ []
  short : w.length ≤ 31
  chars : ∀ c ∈ w, is_word c = true

/-- Words with a blank before each. -/
def spaced (ws : List (List UInt8)) : List UInt8 := ws.flatMap fun w => 0x20 :: w

theorem IsWord.take {w : List UInt8} (h : IsWord w) : w.take 31 = w := List.take_of_length_le h.short

theorem deref_spaced (ws : List (List UInt8)) : is_word (deref (spaced ws)) = false := by
  cases ws <;> rfl

theorem words_of_spaced {ws : List (List UInt8)} (hws : ∀ w ∈ ws, IsWord w) : words_of (spaced ws) = ws := by
  induction ws with
  | nil => rfl
  | cons w ws ih =>
    have hw := hws w List.mem_cons_self
    have hblank : ∀ c ∈ [(0x20 : UInt8)], isspace c = true := List.forall_mem_singleton.mpr rfl
    have htext : spaced (w :: ws) = [0x20] ++ (w ++ spaced ws) := rfl
    rw [htext, words_of_skip hblank, words_of_append hw.nonempty hw.chars (deref_spaced ws),
      ih fun v hv => hws v (List.mem_cons_of_mem w hv)]

theorem ne_zero_of_mem_spaced {ws : List (List UInt8)} (hws : ∀ w ∈ ws, IsWord w) {c : UInt8}
    (hc : c ∈ spaced ws) : c ≠ 0 := by
  obtain ⟨w, hw, hc⟩ := List.mem_flatMap.mp hc
  obtain rfl | hc := List.mem_cons.mp hc
  · decide
  · exact (is_word_iff.mp ((hws w hw).chars c hc)).1

theorem words_of_append_spaced {w : List UInt8} {ws : List (List UInt8)} (hw : IsWord w)
    (hws : ∀ v ∈ ws, IsWord v) : words_of (w ++ spaced ws) = w :: ws := by
  rw [words_of_append hw.nonempty hw.chars (deref_spaced ws), words_of_spaced hws]

end ipmb.rule_lexer

namespace ipmb.rule_parser

/-- The digit a character stands for. -/
def digit (c : UInt8) : Nat := c.toNat - 0x30

/-- A decimal literal without leading zeros for a number of 32 bits. -/
structure Literal where
  text : List UInt8
  nonempty : text ≠ []
  digits : ∀ c ∈ text, 0x30 ≤ c ∧ c ≤ 0x39
  no_leading_zero : text.head? = some 0x30 → text = [0x30]
  lt_two_pow : value 10 (text.map digit) < 2 ^ 32

/-- The number a literal denotes. -/
def Literal.number (n : Literal) : Nat := value 10 (n.text.map digit)

theorem digit_value_digit {c : UInt8} (hc : 0x30 ≤ c ∧ c ≤ 0x39) : digit_value c = some (digit c) := by
  rw [digit_value, if_pos hc]
  rfl

theorem is_digit_digit {c : UInt8} (hc : 0x30 ≤ c ∧ c ≤ 0x39) : is_digit 10 c = true := by
  have hle : c.toNat ≤ 0x39 := UInt8.le_iff_toNat_le.mp hc.2
  simp only [is_digit, digit_value_digit hc, digit, decide_eq_true_eq]
  omega

theorem is_word_digit {c : UInt8} (hc : 0x30 ≤ c ∧ c ≤ 0x39) : is_word c = true := by
  have hge : 0x30 ≤ c.toNat := UInt8.le_iff_toNat_le.mp hc.1
  have hnul : c ≠ 0 := by
    rintro rfl
    exact absurd hge (by decide)
  have hblank : c ≠ 0x20 := by
    rintro rfl
    exact absurd hge (by decide)
  have hcontrol : ¬c ≤ 0x0d := by
    intro h
    have hle : c.toNat ≤ 0x0d := UInt8.le_iff_toNat_le.mp h
    omega
  simp [is_word, isspace, hnul, hblank, hcontrol]

theorem digit_of_digit {c : UInt8} (hc : 0x30 ≤ c ∧ c ≤ 0x39) : digit_of c = digit c := by
  rw [digit_of, digit_value_digit hc, Option.getD_some]

/-- Digits without a leading zero are a decimal literal. -/
theorem magnitude_digits {p : List UInt8} (hne : p ≠ []) (hp : ∀ c ∈ p, 0x30 ≤ c ∧ c ≤ 0x39)
    (hhead : p.head? ≠ some 0x30) : magnitude p = some (value 10 (p.map digit_of)) := by
  rw [magnitude, if_neg hhead, digits_in_full_eq_some_iff]
  exact ⟨hne, fun c hc => is_digit_digit (hp c hc), rfl⟩

/-- What starts with a digit has no sign. -/
theorem int_literal_digits {n : Nat} {p : List UInt8} (hp : ∀ c ∈ p, 0x30 ≤ c ∧ c ≤ 0x39)
    (h : magnitude p = some n) : int_literal p = some (n : Int) := by
  have hsign : ∀ c : UInt8, c < 0x30 → p.head? ≠ some c := by
    intro c hc hhead
    exact absurd (hp c (List.mem_of_head? hhead)).1 (UInt8.not_le.mpr hc)
  rw [int_literal, if_neg (hsign 0x2d (by decide)), if_neg (hsign 0x2b (by decide)), h, Option.map_some]

/-- A literal fits a token. -/
theorem Literal.isWord (n : Literal) : IsWord n.text where
  nonempty := n.nonempty
  short := by
    obtain ⟨c, cs, htext⟩ := List.exists_cons_of_ne_nil n.nonempty
    by_cases hzero : c = 0x30
    · have hone := n.no_leading_zero (by rw [htext, hzero]; rfl)
      rw [hone]
      decide
    · have hdigit : digit c ≠ 0 := by
        have hge : 0x30 ≤ c.toNat := UInt8.le_iff_toNat_le.mp (n.digits c (by simp [htext])).1
        have hne : c.toNat ≠ 0x30 := fun h => hzero (UInt8.toNat_inj.mp h)
        rw [digit]
        omega
      have hlt := n.lt_two_pow
      rw [htext, List.map_cons] at hlt
      have hlen : (cs.map digit).length < 10 :=
        length_lt_of_value_lt (by decide) hdigit (lt_trans hlt (by decide))
      rw [List.length_map] at hlen
      rw [htext, List.length_cons]
      omega
  chars c hc := is_word_digit (n.digits c hc)

theorem magnitude_literal (n : Literal) : magnitude n.text = some n.number := by
  by_cases hzero : n.text.head? = some 0x30
  · rw [Literal.number, n.no_leading_zero hzero]
    decide
  · have hdigits : n.text.map digit_of = n.text.map digit :=
      List.map_congr_left fun c hc => digit_of_digit (n.digits c hc)
    rw [magnitude_digits n.nonempty n.digits hzero, hdigits, Literal.number]

theorem strtol_literal (n : Literal) : strtol n.text = n.number := by
  have hlt : n.number < 2 ^ 32 := n.lt_two_pow
  have hmin : LONG_MIN ≤ n.number := le_trans (by decide) (Int.natCast_nonneg n.number)
  have hmax : (n.number : Int) ≤ LONG_MAX := by
    rw [LONG_MAX]
    omega
  rw [strtol_of_int_literal (int_literal_digits n.digits (magnitude_literal n)), min_eq_right hmax,
    max_eq_right hmin]

end ipmb.rule_parser
