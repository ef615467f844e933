import Ipmb.Routing.IntLiteral
import Ipmb.Routing.RuleWords

open ipmb.rule_lexer

namespace ipmb.rule_parser

def str_eq_eq : List UInt8 := [0x3d, 0x3d]

def str_eq : List UInt8 := [0x3d]

def str_eq_word : List UInt8 := [0x65, 0x71]

/-- The operators of a comparison: `>`, `gt`, `<`, `lt`, `==`, `=` and `eq`. -/
def operators : List (List UInt8) := [str_gt, str_gt_word, str_lt, str_lt_word, str_eq_eq, str_eq, str_eq_word]

/-- `field op value [action [priority]]`. -/
def ComparisonForm (ws : List (List UInt8)) : Prop :=
  ∃ field op value rest, ws = field :: op :: value :: rest ∧ rest.length ≤ 2 ∧ op ∈ operators ∧
    Int32Literal value

/-- `range field low high [action [priority]]`. -/
def RangeForm (ws : List (List UInt8)) : Prop :=
  ∃ field low high rest, ws = str_range :: field :: low :: high :: rest ∧ rest.length ≤ 2 ∧ Int32Literal low ∧
    Int32Literal high

def InGrammar (ws : List (List UInt8)) : Prop := ComparisonForm ws ∨ RangeForm ws

/-- A text is accepted only if its words are in the grammar, and refused as
invalid otherwise. -/
def FollowsGrammar (text : List UInt8) : Prop :=
  ((ipmb_rule_parse text).1 = .IPMB_OK → InGrammar (words_of text)) ∧
    (¬InGrammar (words_of text) → (ipmb_rule_parse text).1 = .IPMB_ERR_INVALID)

variable {text : List UInt8}

theorem strncpy_take (w : List UInt8) : strncpy_31 (w.take 31) = w.take 31 :=
  List.take_of_length_le (List.length_take_le 31 w)

/-- A word that is cut off is no keyword. -/
theorem take_eq_range_iff {w : List UInt8} : w.take 31 = str_range ↔ w = str_range := by
  constructor
  · intro h
    have hlength := congrArg List.length h
    rw [List.length_take] at hlength
    have hshort : w.length ≤ 31 := by
      have hfive : str_range.length = 5 := rfl
      omega
    rwa [List.take_of_length_le hshort] at h
  · rintro rfl
    rfl

/-- What the parser makes of a comparison. -/
theorem ipmb_rule_parse_comparison {field op value : List UInt8} {rest : List (List UInt8)}
    (h : words_of text = field :: op :: value :: rest) (hfield : field ≠ str_range) :
    ipmb_rule_parse text =
      (.IPMB_OK,
        { field := field.take 31
          op := parse_op (op.take 31)
          value := int32_of_long (strtol (value.take 31))
          high := 0
          action := (rest.getD 0 []).take 31
          priority := if 1 < rest.length then int32_of_long (strtol ((rest.getD 1 []).take 31)) else 10 }) := by
  have hkeyword : field.take 31 ≠ str_range := fun heq => hfield (take_eq_range_iff.mp heq)
  rw [ipmb_rule_parse, ipmb_rule_lex_eq, h]
  match rest with
  | [] => simp [hkeyword, strncpy_take, ipmb_rule_ast_t.zero]
  | [action] => simp [hkeyword, strncpy_take, ipmb_rule_ast_t.zero]
  | action :: priority :: rest => simp [hkeyword, strncpy_take, ipmb_rule_ast_t.zero]

/-- What the parser makes of a range, whatever its priority. -/
theorem ipmb_rule_parse_range_words {field low high : List UInt8} {rest : List (List UInt8)}
    (h : words_of text = str_range :: field :: low :: high :: rest) :
    ipmb_rule_parse text =
      (.IPMB_OK,
        { field := field.take 31
          op := .IPMB_RULE_RANGE
          value := int32_of_long (strtol (low.take 31))
          high := int32_of_long (strtol (high.take 31))
          action := (rest.getD 0 []).take 31
          priority := 10 }) := by
  have hkeyword : str_range.take 31 = str_range := rfl
  rw [ipmb_rule_parse, ipmb_rule_lex_eq, h]
  match rest with
  | [] => simp [hkeyword, strncpy_take, ipmb_rule_ast_t.zero]
  | action :: rest =>
    simp [hkeyword, strncpy_take, ipmb_rule_ast_t.zero]
    rw [if_neg (by omega), if_neg (by omega)]

theorem ipmb_rule_parse_few (h : (words_of text).length < 3) :
    (ipmb_rule_parse text).1 = .IPMB_ERR_INVALID := by
  have hlength : (ipmb_rule_lex text 10).length < 3 := by
    rw [ipmb_rule_lex_eq, List.length_map, List.length_take]
    omega
  rw [ipmb_rule_parse]
  simp only [if_pos hlength]

theorem ipmb_rule_parse_short_range {field low : List UInt8} (h : words_of text = [str_range, field, low]) :
    (ipmb_rule_parse text).1 = .IPMB_ERR_INVALID := by
  rw [ipmb_rule_parse, ipmb_rule_lex_eq, h]
  rfl

/-- The words that the parser refuses: it counts them and looks no further. -/
def TooFew (ws : List (List UInt8)) : Prop :=
  ws.length < 3 ∨ (ws.head? = some str_range ∧ ws.length = 3)

theorem ipmb_rule_parse_status (text : List UInt8) :
    (TooFew (words_of text) ∧ (ipmb_rule_parse text).1 = .IPMB_ERR_INVALID) ∨
      (¬TooFew (words_of text) ∧ (ipmb_rule_parse text).1 = .IPMB_OK) := by
  rw [TooFew]
  match h : words_of text with
  | [] => exact .inl ⟨.inl (by simp), ipmb_rule_parse_few (by simp [h])⟩
  | [_] => exact .inl ⟨.inl (by simp), ipmb_rule_parse_few (by simp [h])⟩
  | [_, _] => exact .inl ⟨.inl (by simp), ipmb_rule_parse_few (by simp [h])⟩
  | first :: second :: third :: rest =>
    by_cases hfirst : first = str_range
    · subst hfirst
      cases rest with
      | nil => exact .inl ⟨.inr ⟨rfl, rfl⟩, ipmb_rule_parse_short_range h⟩
      | cons fourth rest => exact .inr ⟨by simp, by rw [ipmb_rule_parse_range_words h]⟩
    · exact .inr ⟨by simp [hfirst], by rw [ipmb_rule_parse_comparison h hfirst]⟩

/-- What the parser does not look at, as the grammar has it: how many words there
are beyond the first ones, which operator it is, and whether bounds are numbers. -/
def Checked (ws : List (List UInt8)) : Prop :=
  (ws.length ≤ 5 ∧ ws.getD 1 [] ∈ operators ∧ Int32Literal (ws.getD 2 [])) ∨
    (ws.head? = some str_range ∧ ws.length ≤ 6 ∧ Int32Literal (ws.getD 2 []) ∧ Int32Literal (ws.getD 3 []))

theorem comparisonForm_iff {first second third : List UInt8} {rest : List (List UInt8)} :
    ComparisonForm (first :: second :: third :: rest) ↔
      rest.length ≤ 2 ∧ second ∈ operators ∧ Int32Literal third := by
  constructor
  · rintro ⟨field, op, value, rest', heq, hlength, hop, hvalue⟩
    cases heq
    exact ⟨hlength, hop, hvalue⟩
  · rintro ⟨hlength, hop, hvalue⟩
    exact ⟨first, second, third, rest, rfl, hlength, hop, hvalue⟩

theorem rangeForm_iff {first second third fourth : List UInt8} {rest : List (List UInt8)} :
    RangeForm (first :: second :: third :: fourth :: rest) ↔
      first = str_range ∧ rest.length ≤ 2 ∧ Int32Literal third ∧ Int32Literal fourth := by
  constructor
  · rintro ⟨field, low, high, rest', heq, hlength, hlow, hhigh⟩
    cases heq
    exact ⟨rfl, hlength, hlow, hhigh⟩
  · rintro ⟨rfl, hlength, hlow, hhigh⟩
    exact ⟨second, third, fourth, rest, rfl, hlength, hlow, hhigh⟩

theorem not_rangeForm_three {first second third : List UInt8} : ¬RangeForm [first, second, third] := by
  rintro ⟨field, low, high, rest, heq, _⟩
  cases heq

/-- With enough words the grammar asks for what the parser does not look at. -/
theorem inGrammar_iff {ws : List (List UInt8)} (h : ¬TooFew ws) : InGrammar ws ↔ Checked ws := by
  rw [TooFew, not_or] at h
  match ws, h with
  | [], h => simp at h
  | [_], h => simp at h
  | [_, _], h => simp at h
  | [first, second, third], ⟨_, hfirst⟩ =>
    have hkeyword : first ≠ str_range := by
      rintro rfl
      exact hfirst ⟨rfl, rfl⟩
    simp [InGrammar, Checked, comparisonForm_iff, not_rangeForm_three, hkeyword]
  | first :: second :: third :: fourth :: rest, _ =>
    have hcomparison : (first :: second :: third :: fourth :: rest).length ≤ 5 ↔ (fourth :: rest).length ≤ 2 := by
      simp only [List.length_cons]
      omega
    have hrange : (first :: second :: third :: fourth :: rest).length ≤ 6 ↔ rest.length ≤ 2 := by
      simp only [List.length_cons]
      omega
    rw [InGrammar, Checked, comparisonForm_iff, rangeForm_iff, hcomparison, hrange]
    simp

/-- The parser follows the grammar exactly where it refuses the text for its few
words, or what it does not look at is as the grammar has it. -/
theorem ipmb_rule_parse_grammar_iff (text : List UInt8) :
    FollowsGrammar text ↔ TooFew (words_of text) ∨ Checked (words_of text) := by
  rw [FollowsGrammar]
  obtain ⟨hfew, hstatus⟩ | ⟨hmany, hstatus⟩ := ipmb_rule_parse_status text
  · rw [hstatus]
    refine iff_of_true ⟨?_, fun _ => rfl⟩ (.inl hfew)
    intro hok
    cases hok
  · rw [hstatus, ← inGrammar_iff hmany, or_iff_right hmany]
    constructor
    · intro h
      exact h.1 rfl
    · intro hgrammar
      exact ⟨fun _ => hgrammar, fun hnot => absurd hgrammar hnot⟩

/-- `type != 5` is accepted. -/
theorem ipmb_rule_parse_accepts_unequal : ¬∀ text, FollowsGrammar text := by
  intro hall
  have hwords : words_of [0x74, 0x79, 0x70, 0x65, 0x20, 0x21, 0x3d, 0x20, 0x35] =
      [[0x74, 0x79, 0x70, 0x65], [0x21, 0x3d], [0x35]] := by decide
  have hgrammar := (hall [0x74, 0x79, 0x70, 0x65, 0x20, 0x21, 0x3d, 0x20, 0x35]).1 (by decide)
  rw [hwords, InGrammar, comparisonForm_iff] at hgrammar
  obtain ⟨-, hop, -⟩ | hrange := hgrammar
  · exact absurd hop (by decide)
  · exact not_rangeForm_three hrange

end ipmb.rule_parser
