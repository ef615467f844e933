import Ipmb.Routing.Compiled
import Ipmb.Routing.RuleRoundTrip

open ipmb.rule_lexer ipmb.rule_parser ipmb.rule_compiler ipmb.route ipmb.route_vm ipmb.int_arith

namespace ipmb.rule_explain

/-- How an operator is printed. -/
def op_text (op : ipmb_rule_op_t) : List UInt8 :=
  if op = .IPMB_RULE_RANGE then str_range
  else if op = .IPMB_RULE_CMP_GT then str_gt
  else if op = .IPMB_RULE_CMP_LT then str_lt
  else str_eq_eq

/-- What the format `%s %s %d` makes of the rule. -/
def explanation (ast : ipmb_rule_ast_t) : List UInt8 :=
  ast.field ++ [0x20] ++ op_text ast.op ++ [0x20] ++ decimal ast.value.toInt

/-- The number returned and the bytes written to the buffer: as much of the text
as fits and a terminator, nothing to a buffer without room. -/
def ipmb_rule_explain (ast : ipmb_rule_ast_t) (len : Nat) : Int × List UInt8 :=
  let buf := if len = 0 then [] else (explanation ast).take (len - 1) ++ [0]
  ((explanation ast).length, buf)

/-- The two rules ask the same of the same field. -/
structure SameRule (ast ast' : ipmb_rule_ast_t) : Prop where
  field : ast'.field = ast.field
  op : ast'.op = ast.op
  value : ast'.value = ast.value
  high : ast.op = .IPMB_RULE_RANGE → ast'.high = ast.high

/-- Every buffer with room for the explanation is filled with a text that is
read back as the same rule, and both compile to programs that match the same
frames. -/
def ReadBack (ast : ipmb_rule_ast_t) : Prop :=
  ∀ len, (ipmb_rule_explain ast len).1 < len →
    ∃ ast', ipmb_rule_parse (ipmb_rule_explain ast len).2 = (.IPMB_OK, ast') ∧ SameRule ast ast' ∧
      ∃ bc bc', ipmb_rule_compile Allocator.succeeds ast = (.IPMB_OK, bc) ∧
        ipmb_rule_compile Allocator.succeeds ast' = (.IPMB_OK, bc') ∧
        ∀ frame, ipmb_vm_evaluate bc' frame = ipmb_vm_evaluate bc frame

theorem isWord_op_text (op : ipmb_rule_op_t) : IsWord (op_text op) := by
  have hspelled : op_text op ∈ spellings op := by
    cases op <;> decide
  exact isWord_spelling hspelled

/-- A range is printed as a word that is no operator, and those are read as `==`. -/
theorem parse_op_op_text (op : ipmb_rule_op_t) :
    parse_op (op_text op) = if op = .IPMB_RULE_RANGE then .IPMB_RULE_CMP_EQ else op := by
  cases op <;> decide

theorem SameRule.compile {ast ast' : ipmb_rule_ast_t} (h : SameRule ast ast') (alloc : Allocator) :
    ipmb_rule_compile alloc ast' = ipmb_rule_compile alloc ast := by
  unfold ipmb_rule_compile compile_body
  by_cases hop : ast.op = .IPMB_RULE_RANGE
  · rw [h.field, h.op, h.value, h.high hop]
  · simp only [h.field, h.op, h.value, if_neg hop]

section known
variable {ast : ipmb_rule_ast_t} {fld : stack_machine.Field}

/-- The words of the explanation of a rule about a known field. -/
theorem words_of_explanation (hfield : ast.field = fld.name) :
    words_of (explanation ast ++ [0]) = [fld.name, op_text ast.op, decimal ast.value.toInt] := by
  have hws : ∀ w ∈ [fld.name, op_text ast.op, decimal ast.value.toInt], IsWord w := by
    intro w hw
    simp only [List.mem_cons, List.not_mem_nil, or_false] at hw
    obtain rfl | rfl | rfl := hw
    · exact isWord_name fld
    · exact isWord_op_text ast.op
    · exact isWord_decimal (inIntRange_toInt ast.value)
  have hspaced : [0x20] ++ explanation ast = spaced [fld.name, op_text ast.op, decimal ast.value.toInt] := by
    simp [explanation, hfield, spaced]
  have hchars : ∀ c ∈ explanation ast, c ≠ 0 := by
    intro c hc
    apply ne_zero_of_mem_spaced hws
    rw [← hspaced]
    exact List.mem_append_right _ hc
  have hblank : ∀ c ∈ [(0x20 : UInt8)], isspace c = true := List.forall_mem_singleton.mpr rfl
  rw [words_of_append_nul hchars, ← words_of_skip hblank, hspaced, words_of_spaced hws]

/-- What is read back: the same field and number, but a range has become a
comparison. -/
theorem ipmb_rule_parse_explanation (hfield : ast.field = fld.name) :
    ipmb_rule_parse (explanation ast ++ [0]) =
      (.IPMB_OK,
        { field := fld.name
          op := if ast.op = .IPMB_RULE_RANGE then .IPMB_RULE_CMP_EQ else ast.op
          value := ast.value
          high := 0
          action := []
          priority := 10 }) := by
  rw [ipmb_rule_parse_comparison (words_of_explanation hfield) (field_name_ne_range fld),
    (isWord_name fld).take, (isWord_op_text ast.op).take, parse_op_op_text, int32_of_token]
  rfl

/-- A buffer with room holds the whole text. -/
theorem ipmb_rule_explain_of_room {len : Nat} (h : (ipmb_rule_explain ast len).1 < len) :
    (ipmb_rule_explain ast len).2 = explanation ast ++ [0] := by
  have hroom : (explanation ast).length < len := Int.ofNat_lt.mp h
  have hpos : len ≠ 0 := by omega
  simp only [ipmb_rule_explain, if_neg hpos]
  rw [List.take_of_length_le (by omega)]

theorem not_readBack_range (hfield : ast.field = fld.name) (hop : ast.op = .IPMB_RULE_RANGE) :
    ¬ReadBack ast := by
  intro h
  obtain ⟨ast', hparse, hsame, -⟩ := h ((explanation ast).length + 1) (Int.lt_succ _)
  rw [ipmb_rule_explain_of_room (Int.lt_succ _), ipmb_rule_parse_explanation hfield] at hparse
  cases hparse
  have hread := hsame.op
  rw [hop] at hread
  cases hread

/-- An explanation of a comparison says the rule, one of a range only its lower
bound, and that as the value of an `==`. -/
theorem ipmb_rule_explain_read_back_iff (hfield : ast.field = fld.name) :
    ReadBack ast ↔ ast.op ≠ .IPMB_RULE_RANGE := by
  constructor
  · intro h hop
    exact not_readBack_range hfield hop h
  · intro hop len hroom
    rw [ipmb_rule_explain_of_room hroom, ipmb_rule_parse_explanation hfield]
    have hsame : SameRule ast
        { field := fld.name
          op := if ast.op = .IPMB_RULE_RANGE then .IPMB_RULE_CMP_EQ else ast.op
          value := ast.value
          high := 0
          action := []
          priority := 10 } := ⟨hfield.symm, if_neg hop, rfl, fun hrange => absurd hrange hop⟩
    obtain ⟨bc, hcompile, -⟩ := compiled_rule_decides hfield
    refine ⟨_, rfl, hsame, bc, bc, hcompile, ?_, fun _ => rfl⟩
    rw [hsame.compile, hcompile]

end known

/-- `range type 1 5` -/
def range_text : List UInt8 :=
  [0x72, 0x61, 0x6e, 0x67, 0x65, 0x20, 0x74, 0x79, 0x70, 0x65, 0x20, 0x31, 0x20, 0x35]

def range_ast : ipmb_rule_ast_t where
  field := str_type
  op := .IPMB_RULE_RANGE
  value := 1
  high := 5
  action := []
  priority := 10

/-- `type > -7` -/
def greater_ast : ipmb_rule_ast_t where
  field := str_type
  op := .IPMB_RULE_CMP_GT
  value := -7
  high := 0
  action := []
  priority := 10

theorem ipmb_rule_explain_greater : ReadBack greater_ast ↔ greater_ast.op ≠ .IPMB_RULE_RANGE :=
  have hfield : greater_ast.field = stack_machine.Field.type.name := rfl
  ipmb_rule_explain_read_back_iff hfield

/-- The range is explained as `type range 1`, which is read as `type == 1`. -/
theorem ipmb_rule_explain_range_not_read_back :
    ipmb_rule_parse range_text = (.IPMB_OK, range_ast) ∧
      ipmb_rule_parse (explanation range_ast ++ [0]) =
        (.IPMB_OK, { range_ast with op := .IPMB_RULE_CMP_EQ, high := 0 }) ∧
      ¬ReadBack range_ast := by
  have hfield : range_ast.field = stack_machine.Field.type.name := rfl
  refine ⟨?_, ?_, ?_⟩
  · decide
  · exact ipmb_rule_parse_explanation hfield
  · exact not_readBack_range hfield rfl

end ipmb.rule_explain
