import Ipmb.Protocol.Container
import Ipmb.Routing.Compiled
import Ipmb.Routing.RuleGrammar
import Ipmb.Routing.RuleText

open fallible
open ipmb.checksum ipmb.frame_reader ipmb.rule_lexer ipmb.rule_parser ipmb.rule_compiler ipmb.route_vm
open ipmb.stack_machine

namespace ipmb.route

/-- What the tool does with a rule and a frame: the status it ends with and
whether it prints that the rule matched. -/
def route_rule (alloc : Allocator) (rule : List UInt8) (frame : ipmb_frame_t) :
    Except Fault (ipmb_status_t × Bool) := do
  let (rc, ast) := ipmb_rule_parse rule
  if rc ≠ .IPMB_OK then pure (rc, false)
  else
    let (rc, bc) := ipmb_rule_compile alloc ast
    if rc ≠ .IPMB_OK then pure (rc, false)
    else
      let (rc, matched) ← ipmb_vm_evaluate bc frame
      pure (rc, decide (rc = .IPMB_OK) && matched)

/-- An operator as the text of a rule has it. -/
def op_text : ipmb_rule_op_t → List UInt8
  | .IPMB_RULE_CMP_EQ => [0x3d, 0x3d]
  | .IPMB_RULE_CMP_GT => str_gt
  | .IPMB_RULE_CMP_LT => str_lt
  | .IPMB_RULE_RANGE => str_range

/-- The text of a rule: `F == N`, `F > N`, `F < N` or `range F N M`. -/
def rule_text (fld : Field) (op : ipmb_rule_op_t) (n m : Literal) : List UInt8 :=
  if op = .IPMB_RULE_RANGE then op_text op ++ spaced [fld.name, n.text, m.text]
  else fld.name ++ spaced [op_text op, n.text]

theorem isWord_name (fld : Field) : IsWord fld.name := by
  have hchars : fld.name.all is_word = true := by cases fld <;> rfl
  refine ⟨?_, ?_, List.all_eq_true.mp hchars⟩ <;> cases fld <;> decide

theorem isWord_op_text (op : ipmb_rule_op_t) : IsWord (op_text op) := by
  have hchars : (op_text op).all is_word = true := by cases op <;> rfl
  refine ⟨?_, ?_, List.all_eq_true.mp hchars⟩ <;> cases op <;> decide

theorem field_name_ne_range (fld : Field) : fld.name ≠ str_range := by
  cases fld <;> decide

theorem int32_of_long_literal (n : Literal) : int32_of_long (strtol n.text) = Int32.ofNat n.number := by
  rw [strtol_literal, int32_of_long]
  apply Int32.toBitVec_inj.mp
  simp

theorem ipmb_rule_parse_cmp (fld : Field) {op : ipmb_rule_op_t} (n m : Literal)
    (hop : op ≠ .IPMB_RULE_RANGE) :
    ipmb_rule_parse (rule_text fld op n m) =
      (.IPMB_OK,
        { field := fld.name
          op := op
          value := Int32.ofNat n.number
          high := 0
          action := []
          priority := 10 }) := by
  have hwords : words_of (rule_text fld op n m) = [fld.name, op_text op, n.text] := by
    rw [rule_text, if_neg hop]
    refine words_of_append_spaced (isWord_name fld) ?_
    simp only [List.mem_cons, List.not_mem_nil, or_false, forall_eq_or_imp, forall_eq]
    exact ⟨isWord_op_text op, n.isWord⟩
  have hparse : parse_op (op_text op) = op := by
    cases op with
    | IPMB_RULE_CMP_EQ => decide
    | IPMB_RULE_CMP_GT => decide
    | IPMB_RULE_CMP_LT => decide
    | IPMB_RULE_RANGE => exact absurd rfl hop
  rw [ipmb_rule_parse_comparison hwords (field_name_ne_range fld), (isWord_name fld).take,
    (isWord_op_text op).take, n.isWord.take, hparse, int32_of_long_literal]
  rfl

theorem ipmb_rule_parse_range (fld : Field) (n m : Literal) :
    ipmb_rule_parse (rule_text fld .IPMB_RULE_RANGE n m) =
      (.IPMB_OK,
        { field := fld.name
          op := .IPMB_RULE_RANGE
          value := Int32.ofNat n.number
          high := Int32.ofNat m.number
          action := []
          priority := 10 }) := by
  have hwords : words_of (rule_text fld .IPMB_RULE_RANGE n m) = [str_range, fld.name, n.text, m.text] := by
    rw [rule_text, if_pos rfl]
    refine words_of_append_spaced (isWord_op_text .IPMB_RULE_RANGE) ?_
    simp only [List.mem_cons, List.not_mem_nil, or_false, forall_eq_or_imp, forall_eq]
    exact ⟨isWord_name fld, n.isWord, m.isWord⟩
  rw [ipmb_rule_parse_range_words hwords, (isWord_name fld).take, n.isWord.take, m.isWord.take,
    int32_of_long_literal, int32_of_long_literal]
  rfl

/-- The last operand counts for a range only. -/
theorem ruleHolds_high_irrelevant {α : Type} [LE α] [LT α] {op : ipmb_rule_op_t} {x value high high' : α}
    (h : op = .IPMB_RULE_RANGE → high = high') :
    RuleHolds op x value high ↔ RuleHolds op x value high' := by
  cases op with
  | IPMB_RULE_CMP_EQ => exact Iff.rfl
  | IPMB_RULE_CMP_GT => exact Iff.rfl
  | IPMB_RULE_CMP_LT => exact Iff.rfl
  | IPMB_RULE_RANGE => rw [h rfl]

theorem ipmb_rule_parse_text (fld : Field) (op : ipmb_rule_op_t) (n m : Literal) :
    ∃ ast, ipmb_rule_parse (rule_text fld op n m) = (.IPMB_OK, ast) ∧ ast.field = fld.name ∧
      ast.op = op ∧ ast.value = Int32.ofNat n.number ∧
      (op = .IPMB_RULE_RANGE → ast.high = Int32.ofNat m.number) := by
  by_cases hop : op = .IPMB_RULE_RANGE
  · subst hop
    exact ⟨_, ipmb_rule_parse_range fld n m, rfl, rfl, rfl, fun _ => rfl⟩
  · exact ⟨_, ipmb_rule_parse_cmp fld n m hop, rfl, rfl, rfl, fun h => absurd h hop⟩

/-- A rule matches when it holds of the 32-bit signed readings. -/
theorem route_rule_eq (fld : Field) (op : ipmb_rule_op_t) (n m : Literal) (frame : ipmb_frame_t) :
    route_rule Allocator.succeeds (rule_text fld op n m) frame =
      .ok (.IPMB_OK, decide (RuleHolds op (Int32.ofNat (fld.value frame)) (Int32.ofNat n.number)
        (Int32.ofNat m.number))) := by
  obtain ⟨ast, hparse, hfield, hop, hvalue, hhigh⟩ := ipmb_rule_parse_text fld op n m
  obtain ⟨bc, hcompile, heval⟩ := compiled_rule_decides hfield
  have hholds : RuleHolds op (Int32.ofNat (fld.value frame)) (Int32.ofNat n.number) ast.high ↔
      RuleHolds op (Int32.ofNat (fld.value frame)) (Int32.ofNat n.number) (Int32.ofNat m.number) :=
    ruleHolds_high_irrelevant hhigh
  simp [route_rule, hparse, hcompile, heval, hop, hvalue, hholds]

/-- The signed reading of a 32-bit number. -/
def signed (k : Nat) : Int := if k < 2 ^ 31 then k else k - 2 ^ 32

theorem toInt_ofNat_eq_signed {k : Nat} (hk : k < 2 ^ 32) : (Int32.ofNat k).toInt = signed k := by
  have hwrap : (Int32.ofNat k).toInt = (k : Int).bmod (2 ^ 32) := Int32.toInt_ofNat'
  rw [hwrap, Int.bmod_def, signed]
  push_cast
  split_ifs <;> omega

/-- Comparing 32-bit numbers in the machine compares their signed readings. -/
theorem ruleHolds_ofNat_iff (op : ipmb_rule_op_t) {x value high : Nat} (hx : x < 2 ^ 32)
    (hvalue : value < 2 ^ 32) (hhigh : high < 2 ^ 32) :
    RuleHolds op (Int32.ofNat x) (Int32.ofNat value) (Int32.ofNat high) ↔
      RuleHolds op (signed x) (signed value) (signed high) := by
  rw [← toInt_ofNat_eq_signed hx, ← toInt_ofNat_eq_signed hvalue, ← toInt_ofNat_eq_signed hhigh]
  cases op with
  | IPMB_RULE_CMP_EQ => exact Int32.toInt_inj.symm
  | IPMB_RULE_CMP_GT => exact Int32.lt_iff_toInt_lt
  | IPMB_RULE_CMP_LT => exact Int32.lt_iff_toInt_lt
  | IPMB_RULE_RANGE => exact and_congr Int32.le_iff_toInt_le Int32.le_iff_toInt_le

/-- Signed readings are ordered as the numbers are on either side of the sign
bit, and are equal only for equal numbers. -/
theorem signed_lt_iff {x y : Nat} (h : x < 2 ^ 31 ↔ y < 2 ^ 31) : signed x < signed y ↔ x < y := by
  unfold signed
  split_ifs <;> omega

theorem signed_inj {x y : Nat} (hx : x < 2 ^ 32) (hy : y < 2 ^ 32) : signed x = signed y ↔ x = y := by
  unfold signed
  split_ifs <;> omega

/-- Every number a rule can ask about in an accepted message has 32 bits. -/
theorem value_lt_two_pow {data : List UInt8} {msg : ipmb_message_t} {frame : ipmb_frame_t}
    (hparse : ipmb_parse_message Allocator.succeeds data = (.IPMB_OK, msg)) (hframe : frame ∈ msg.frames)
    (fld : Field) : fld.value frame < 2 ^ 32 := by
  cases fld with
  | type => exact lt_trans frame.frame_type.toNat_lt (by decide)
  | flags => exact lt_trans frame.frame_flags.toNat_lt (by decide)
  | source => exact frame.source_addr.toNat_lt
  | dest => exact frame.dest_addr.toNat_lt
  | priority => exact lt_trans frame.priority.toNat_lt (by decide)
  | ttl => exact lt_trans frame.ttl.toNat_lt (by decide)
  | payload_len =>
    obtain ⟨m, rfl, _⟩ := ipmb_parse_message_sound hparse
    have hwf := m.frames_wellFormed frame hframe
    have hlimit : IPMB_MAX_PAYLOAD < 2 ^ 32 := by decide
    calc frame.payload_len = frame.payload.length := hwf.payload_len_eq
      _ ≤ IPMB_MAX_PAYLOAD := hwf.payload_le
      _ < 2 ^ 32 := hlimit

/-- Rules compare the signed 32-bit readings of the field and the literals. For
equality this is equality of the numbers; for the order it is the order of the
numbers when they lie on one side of the sign bit. -/
theorem route_rule_signed {data : List UInt8} {msg : ipmb_message_t} {frame : ipmb_frame_t}
    (hparse : ipmb_parse_message Allocator.succeeds data = (.IPMB_OK, msg)) (hframe : frame ∈ msg.frames)
    (fld : Field) (op : ipmb_rule_op_t) (n m : Literal) :
    ∃ matched, route_rule Allocator.succeeds (rule_text fld op n m) frame = .ok (.IPMB_OK, matched) ∧
      (matched = true ↔ RuleHolds op (signed (fld.value frame)) (signed n.number) (signed m.number)) ∧
      (op = .IPMB_RULE_CMP_EQ → (matched = true ↔ fld.value frame = n.number)) ∧
      ((fld.value frame < 2 ^ 31 ↔ n.number < 2 ^ 31) →
        (op = .IPMB_RULE_RANGE → (fld.value frame < 2 ^ 31 ↔ m.number < 2 ^ 31)) →
          (matched = true ↔ RuleHolds op (fld.value frame) n.number m.number)) := by
  have hvalue := value_lt_two_pow hparse hframe fld
  have hsigned := ruleHolds_ofNat_iff op hvalue n.lt_two_pow m.lt_two_pow
  refine ⟨_, route_rule_eq fld op n m frame, ?_, ?_, ?_⟩
  · rw [decide_eq_true_iff]
    exact hsigned
  · rintro rfl
    rw [decide_eq_true_iff]
    exact hsigned.trans (signed_inj hvalue n.lt_two_pow)
  · intro hside hsideHigh
    rw [decide_eq_true_iff]
    refine hsigned.trans ?_
    cases op with
    | IPMB_RULE_CMP_EQ => exact signed_inj hvalue n.lt_two_pow
    | IPMB_RULE_CMP_GT => exact signed_lt_iff hside.symm
    | IPMB_RULE_CMP_LT => exact signed_lt_iff hside
    | IPMB_RULE_RANGE =>
      have hlow : signed n.number ≤ signed (fld.value frame) ↔ n.number ≤ fld.value frame := by
        rw [← not_lt, signed_lt_iff hside, not_lt]
      have hhigh : signed (fld.value frame) ≤ signed m.number ↔ fld.value frame ≤ m.number := by
        rw [← not_lt, signed_lt_iff (hsideHigh rfl).symm, not_lt]
      exact and_congr hlow hhigh

/-- A frame from an address with the highest bit set. -/
def high_source_frame : ipmb_frame_t :=
  let f : ipmb_frame_t :=
    { frame_type := 1
      frame_flags := 0
      source_addr := 0x80000000
      dest_addr := 2
      priority := 0
      ttl := 0
      payload_len := 0
      payload := []
      crc := 0 }
  { f with crc := ipmb_crc32 f.header }

def high_source_message : Container where
  message :=
    { version := 1
      flags := 0
      session_id := 1
      sequence := 1
      frame_count := 1
      frames := [high_source_frame] }
  frames_le := by decide
  frame_count_eq := rfl
  frames_wellFormed := by
    simp only [List.mem_cons, List.not_mem_nil, or_false, forall_eq]
    exact ⟨by decide, rfl, rfl⟩

/-- The literal `1`. -/
def literal_one : Literal where
  text := [0x31]
  nonempty := by decide
  digits := by simp
  no_leading_zero := by decide
  lt_two_pow := by decide

theorem route_rule_signed_literal_one :
    route_rule Allocator.succeeds (rule_text .dest .IPMB_RULE_CMP_GT literal_one literal_one)
      high_source_frame = .ok (.IPMB_OK, true) := by
  have hparse := ipmb_parse_message_complete high_source_message []
  obtain ⟨matched, hroute, _, _, hnat⟩ := route_rule_signed hparse List.mem_cons_self
    .dest .IPMB_RULE_CMP_GT literal_one literal_one
  have hmatched : matched = true := (hnat (by decide) (by decide)).mpr (by decide)
  rw [hroute, hmatched]

/-- The address 0x80000000 is above 1, yet `source > 1` does not match it. -/
theorem route_rule_misses_high_source :
    ipmb_parse_message Allocator.succeeds high_source_message.enc =
        (.IPMB_OK, high_source_message.message) ∧
      high_source_frame ∈ high_source_message.message.frames ∧
      RuleHolds .IPMB_RULE_CMP_GT (Field.source.value high_source_frame) literal_one.number
        literal_one.number ∧
      route_rule Allocator.succeeds
        (rule_text .source .IPMB_RULE_CMP_GT literal_one literal_one) high_source_frame =
        .ok (.IPMB_OK, false) := by
  have hparse := ipmb_parse_message_complete high_source_message []
  rw [List.append_nil] at hparse
  refine ⟨hparse, List.mem_cons_self, by decide, ?_⟩
  rw [route_rule_eq]
  decide

end ipmb.route
