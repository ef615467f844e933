import Ipmb.Routing.Decimal
import Ipmb.Routing.RouteRule
import Ipmb.Routing.RuleGrammar

open ipmb.rule_lexer ipmb.int_arith ipmb.route

namespace ipmb.rule_parser

/-- White space between two words. -/
structure Gap where
  chars : List UInt8
  nonempty : chars ≠ []
  spaces : ∀ c ∈ chars, isspace c = true

/-- Words with white space between them; the gaps are counted from the end. -/
def join (gap : Nat → Gap) : List (List UInt8) → List UInt8
  | [] => []
  | [w] => w
  | w :: v :: ws => w ++ ((gap ws.length).chars ++ join gap (v :: ws))

theorem Gap.deref (g : Gap) (text : List UInt8) : is_word (deref (g.chars ++ text)) = false := by
  obtain ⟨c, cs, hchars⟩ := List.exists_cons_of_ne_nil g.nonempty
  have hc := g.spaces c (by rw [hchars]; exact List.mem_cons_self)
  have hword : is_word c = false := by
    simp [is_word, hc]
  rw [hchars]
  exact hword

/-- The words of joined words are these. -/
theorem words_of_join (gap : Nat → Gap) {ws : List (List UInt8)} (hws : ∀ w ∈ ws, IsWord w) :
    words_of (join gap ws) = ws := by
  match ws, hws with
  | [], _ => exact words_of_nul rfl
  | [w], hws =>
    have hw := hws w List.mem_cons_self
    have hnil : words_of [] = [] := rfl
    have hsingle : words_of (w ++ []) = w :: words_of [] := words_of_append hw.nonempty hw.chars rfl
    rwa [List.append_nil, hnil] at hsingle
  | w :: v :: ws, hws =>
    have hw := hws w List.mem_cons_self
    rw [join, words_of_append hw.nonempty hw.chars ((gap ws.length).deref _), words_of_skip (gap ws.length).spaces,
      words_of_join gap fun u hu => hws u (List.mem_cons_of_mem _ hu)]

/-- How the operator of a comparison is written. -/
def spellings : ipmb_rule_op_t → List (List UInt8)
  | .IPMB_RULE_CMP_EQ => [str_eq_eq, str_eq, str_eq_word]
  | .IPMB_RULE_CMP_GT => [str_gt, str_gt_word]
  | .IPMB_RULE_CMP_LT => [str_lt, str_lt_word]
  | .IPMB_RULE_RANGE => [str_range]

/-- What an AST says that has a canonical text, with the spelling of its
operator in it. -/
structure CanonicalRule where
  field : stack_machine.Field
  op : ipmb_rule_op_t
  op_word : List UInt8
  op_word_mem : op_word ∈ spellings op
  value : Int32
  high : Int32
  action : List UInt8
  action_isWord : IsWord action
  priority : Int32

/-- `field op value action priority` or `range field value high action priority`. -/
def CanonicalRule.words (r : CanonicalRule) : List (List UInt8) :=
  if r.op = .IPMB_RULE_RANGE then
    [r.op_word, r.field.name, decimal r.value.toInt, decimal r.high.toInt, r.action, decimal r.priority.toInt]
  else [r.field.name, r.op_word, decimal r.value.toInt, r.action, decimal r.priority.toInt]

/-- The text is accepted with an AST that says the same. -/
def RoundTrips (r : CanonicalRule) (text : List UInt8) : Prop :=
  ∃ ast, ipmb_rule_parse text = (.IPMB_OK, ast) ∧ ast.field = r.field.name ∧ ast.op = r.op ∧
    ast.value = r.value ∧ (r.op = .IPMB_RULE_RANGE → ast.high = r.high) ∧ ast.action = r.action ∧
    ast.priority = r.priority

theorem isWord_spelling {op : ipmb_rule_op_t} {w : List UInt8} (h : w ∈ spellings op) : IsWord w := by
  have hall : ∀ v ∈ spellings op, v ≠ [] ∧ v.length ≤ 31 ∧ v.all is_word = true := by
    cases op <;> decide
  obtain ⟨hne, hshort, hchars⟩ := hall w h
  exact ⟨hne, hshort, List.all_eq_true.mp hchars⟩

theorem parse_op_spelling {op : ipmb_rule_op_t} {w : List UInt8} (h : w ∈ spellings op)
    (hop : op ≠ .IPMB_RULE_RANGE) : parse_op w = op := by
  have hall : ∀ v ∈ spellings op, op ≠ .IPMB_RULE_RANGE → parse_op v = op := by
    cases op <;> decide
  exact hall w h hop

/-- What is read back from the decimals of a number. -/
theorem int32_of_token (v : Int32) : int32_of_long (strtol ((decimal v.toInt).take 31)) = v := by
  rw [(isWord_decimal (inIntRange_toInt v)).take, int32_of_decimal]

theorem CanonicalRule.isWord_words (r : CanonicalRule) : ∀ w ∈ r.words, IsWord w := by
  have hfield := isWord_name r.field
  have hop := isWord_spelling r.op_word_mem
  have hvalue := isWord_decimal (inIntRange_toInt r.value)
  have hhigh := isWord_decimal (inIntRange_toInt r.high)
  have hpriority := isWord_decimal (inIntRange_toInt r.priority)
  rw [CanonicalRule.words]
  split
  · simp [hfield, hop, hvalue, hhigh, hpriority, r.action_isWord]
  · simp [hfield, hop, hvalue, hpriority, r.action_isWord]

/-- What the parser makes of the canonical text of a rule: it does not read the
priority of a range. -/
theorem ipmb_rule_parse_canonical (r : CanonicalRule) (gap : Nat → Gap) :
    ipmb_rule_parse (join gap r.words) =
      (.IPMB_OK,
        { field := r.field.name
          op := r.op
          value := r.value
          high := if r.op = .IPMB_RULE_RANGE then r.high else 0
          action := r.action
          priority := if r.op = .IPMB_RULE_RANGE then 10 else r.priority }) := by
  have hwords := words_of_join gap r.isWord_words
  by_cases hop : r.op = .IPMB_RULE_RANGE
  · have hop_word : r.op_word = str_range := by
      have hmem := r.op_word_mem
      rw [hop] at hmem
      exact List.mem_singleton.mp hmem
    have hrange : r.words =
        [str_range, r.field.name, decimal r.value.toInt, decimal r.high.toInt, r.action,
          decimal r.priority.toInt] := by
      rw [CanonicalRule.words, if_pos hop, hop_word]
    rw [ipmb_rule_parse_range_words (hwords.trans hrange), (isWord_name r.field).take, int32_of_token,
      int32_of_token, if_pos hop, if_pos hop, hop]
    simp [r.action_isWord.take]
  · have hcomparison : r.words =
        [r.field.name, r.op_word, decimal r.value.toInt, r.action, decimal r.priority.toInt] := by
      rw [CanonicalRule.words, if_neg hop]
    rw [ipmb_rule_parse_comparison (hwords.trans hcomparison) (field_name_ne_range r.field),
      (isWord_name r.field).take, (isWord_spelling r.op_word_mem).take,
      parse_op_spelling r.op_word_mem hop, int32_of_token, if_neg hop, if_neg hop]
    simp [r.action_isWord.take, int32_of_token]

/-- The canonical text of a rule is read back exactly where the rule is no range,
or has the priority that a range gets. -/
theorem ipmb_rule_round_trips_iff (r : CanonicalRule) (gap : Nat → Gap) :
    RoundTrips r (join gap r.words) ↔ (r.op = .IPMB_RULE_RANGE → r.priority = 10) := by
  rw [RoundTrips, ipmb_rule_parse_canonical]
  constructor
  · rintro ⟨ast, hparse, -, -, -, -, -, hpriority⟩ hop
    cases hparse
    rw [← hpriority]
    exact if_pos hop
  · intro h
    refine ⟨_, rfl, rfl, rfl, rfl, fun hop => if_pos hop, rfl, ?_⟩
    by_cases hop : r.op = .IPMB_RULE_RANGE
    · exact (if_pos hop).trans (h hop).symm
    · exact if_neg hop

/-- `range type 1 5 go 5` is read back with priority 10. -/
theorem ipmb_rule_parse_drops_priority :
    ¬∀ (r : CanonicalRule) (gap : Nat → Gap), RoundTrips r (join gap r.words) := by
  intro hall
  let r : CanonicalRule :=
    { field := .type
      op := .IPMB_RULE_RANGE
      op_word := str_range
      op_word_mem := List.mem_singleton_self _
      value := 1
      high := 5
      action := [0x67, 0x6f]
      action_isWord := ⟨by decide, by decide, List.all_eq_true.mp (by decide)⟩
      priority := 5 }
  let gap : Gap := { chars := [0x20], nonempty := by decide, spaces := List.all_eq_true.mp (by decide) }
  obtain ⟨ast, hparse, -, -, -, -, -, hpriority⟩ := hall r fun _ => gap
  rw [ipmb_rule_parse_canonical] at hparse
  cases hparse
  exact absurd hpriority (by decide)

end ipmb.rule_parser
