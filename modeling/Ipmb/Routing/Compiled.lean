import Ipmb.Routing.MachineRuns
import Ipmb.Routing.Simulation

open ipmb.endian ipmb.frame_reader ipmb.rule_parser ipmb.rule_compiler ipmb.route_vm

namespace ipmb.stack_machine

/-- The fields of a frame a rule can ask about. -/
inductive Field where
  | type
  | flags
  | source
  | dest
  | priority
  | ttl
  | payload_len
  deriving DecidableEq

/-- The name of a field in the text of a rule. -/
def Field.name : Field → List UInt8
  | .type => str_type
  | .flags => str_flags
  | .source => str_source
  | .dest => str_dest
  | .priority => str_priority
  | .ttl => str_ttl
  | .payload_len => str_payload_len

/-- The number a field of a frame holds. -/
def Field.value (f : ipmb_frame_t) : Field → Nat
  | .type => f.frame_type.toNat
  | .flags => f.frame_flags.toNat
  | .source => f.source_addr.toNat
  | .dest => f.dest_addr.toNat
  | .priority => f.priority.toNat
  | .ttl => f.ttl.toNat
  | .payload_len => f.payload_len

theorem field_id_name_ne_zero (fld : Field) : field_id fld.name ≠ 0 := by
  cases fld <;> decide

theorem field_id_eq_zero {name : List UInt8} (h : ∀ fld : Field, name ≠ fld.name) :
    field_id name = 0 := by
  have htype : name ≠ str_type := h .type
  have hflags : name ≠ str_flags := h .flags
  have hsource : name ≠ str_source := h .source
  have hdest : name ≠ str_dest := h .dest
  have hpriority : name ≠ str_priority := h .priority
  have httl : name ≠ str_ttl := h .ttl
  have hpayload : name ≠ str_payload_len := h .payload_len
  rw [field_id, if_neg htype, if_neg hflags, if_neg hsource, if_neg hdest, if_neg hpriority,
    if_neg httl, if_neg hpayload]

theorem toInt32_eq_ofNat (w : UInt32) : w.toInt32 = Int32.ofNat w.toNat := by
  apply Int32.toBitVec_inj.mp
  simp

/-- The compiler and the machine number the fields alike: the number compiled
for a name loads the field of that name, as a 32-bit signed number. -/
theorem load_field_name (f : ipmb_frame_t) (fld : Field) :
    load_field f (field_id fld.name) = Int32.ofNat (fld.value f) := by
  have hhalf (w : UInt16) : w.toUInt32.toInt32 = Int32.ofNat w.toNat := by
    rw [toInt32_eq_ofNat, UInt16.toNat_toUInt32]
  have hlen (n : Nat) : (UInt32.ofNat n).toInt32 = Int32.ofNat n := by
    apply Int32.toBitVec_inj.mp
    simp
  cases fld with
  | type => exact hhalf f.frame_type
  | flags => exact hhalf f.frame_flags
  | source => exact toInt32_eq_ofNat f.source_addr
  | dest => exact toInt32_eq_ofNat f.dest_addr
  | priority => exact hhalf f.priority
  | ttl => exact hhalf f.ttl
  | payload_len => exact hlen f.payload_len

/-- What a rule asks of the number in its field, over any kind of number. -/
def RuleHolds {α : Type} [LE α] [LT α] (op : ipmb_rule_op_t) (x value high : α) : Prop :=
  match op with
  | .IPMB_RULE_CMP_EQ => x = value
  | .IPMB_RULE_CMP_GT => x > value
  | .IPMB_RULE_CMP_LT => x < value
  | .IPMB_RULE_RANGE => value ≤ x ∧ x ≤ high

instance {α : Type} [LE α] [LT α] [DecidableEq α] [DecidableLE α] [DecidableLT α]
    (op : ipmb_rule_op_t) (x value high : α) : Decidable (RuleHolds op x value high) :=
  match op with
  | .IPMB_RULE_CMP_EQ => inferInstanceAs (Decidable (x = value))
  | .IPMB_RULE_CMP_GT => inferInstanceAs (Decidable (x > value))
  | .IPMB_RULE_CMP_LT => inferInstanceAs (Decidable (x < value))
  | .IPMB_RULE_RANGE => inferInstanceAs (Decidable (value ≤ x ∧ x ≤ high))

section programs
variable {full : Nat → Bool} {f : ipmb_frame_t} {fuel : Nat} {rest : List UInt8} {st : List Int32}

theorem step_load_field {fid : UInt8} (hroom : full st.length = false) :
    step full f (IPMB_OP_LOAD_FIELD :: fid :: rest) st =
      some (.inl (rest, load_field f fid :: st)) := by
  have hstep : step full f (IPMB_OP_LOAD_FIELD :: fid :: rest) st =
      if true && full st.length then none
      else some (.inl (rest, load_field f fid :: st)) := rfl
  simp [hstep, hroom]

/-- An immediate comes back as it was stored. -/
theorem step_push_int {v : Int32} (hroom : full st.length = false) :
    step full f (IPMB_OP_PUSH_INT :: (ipmb_store_le32 v.toUInt32 ++ rest)) st =
      some (.inl (rest, v :: st)) := by
  have hdecode : decode (IPMB_OP_PUSH_INT :: (ipmb_store_le32 v.toUInt32 ++ rest)) =
      some (.pushInt v, rest) := by
    have hload := ipmb_load_le32_store v.toUInt32 rest
    have hdrop : (ipmb_store_le32 v.toUInt32 ++ rest).drop 4 = rest :=
      List.drop_left' (length_ipmb_store_le32 v.toUInt32)
    simp [decode, hload, hdrop]
  simp [step, hdecode, hroom]

theorem step_cmp {op : ipmb_rule_op_t} {value x : Int32} (high : Int32) (hop : op ≠ .IPMB_RULE_RANGE) :
    step full f (cmp_opcode op :: rest) (value :: x :: st) =
      some (.inl (rest, ofBool (decide (RuleHolds op x value high)) :: st)) := by
  cases op with
  | IPMB_RULE_CMP_EQ => rfl
  | IPMB_RULE_CMP_GT => rfl
  | IPMB_RULE_CMP_LT => rfl
  | IPMB_RULE_RANGE => exact absurd rfl hop

theorem step_range_tests {value high x : Int32} (hroom : full (st.length + 3) = false) :
    step full f (IPMB_OP_RANGE :: rest) (high :: value :: x :: st) =
      some (.inl (rest, ofBool (decide (x ≤ high)) :: ofBool (decide (x ≥ value)) :: st)) := by
  have hstep : step full f (IPMB_OP_RANGE :: rest) (high :: value :: x :: st) =
      if true && full (st.length + 3) then none
      else some (.inl (rest, ofBool (decide (x ≤ high)) :: ofBool (decide (x ≥ value)) :: st)) := rfl
  simp [hstep, hroom]

theorem step_and {a b : Int32} :
    step full f (IPMB_OP_AND :: rest) (b :: a :: st) =
      some (.inl (rest, ofBool (decide (a ≠ 0) && decide (b ≠ 0)) :: st)) := rfl

theorem step_end {top : Int32} :
    step full f (IPMB_OP_END :: rest) (top :: st) = some (.inr (decide (top ≠ 0))) := rfl

theorem run_end {top : Int32} :
    run full f (fuel + 1) (IPMB_OP_END :: rest) (top :: st) = some (decide (top ≠ 0)) := rfl

theorem ofBool_ne_zero (b : Bool) : decide (ofBool b ≠ 0) = b := by
  cases b <;> rfl

end programs

theorem meaning_cmp_program (f : ipmb_frame_t) (fid : UInt8) {op : ipmb_rule_op_t} (value high : Int32)
    (hop : op ≠ .IPMB_RULE_RANGE) :
    meaning (cmp_program fid op value) f =
      some (decide (RuleHolds op (load_field f fid) value high)) := by
  have hlen : (cmp_program fid op value).length = 9 := rfl
  unfold meaning
  rw [hlen, cmp_program, List.cons_append, List.cons_append, List.cons_append,
    run_of_next (step_load_field rfl), run_of_next (step_push_int rfl), run_of_next (step_cmp high hop),
    run_end, ofBool_ne_zero]

theorem meaning_range_program (f : ipmb_frame_t) (fid : UInt8) (value high : Int32) :
    meaning (range_program fid value high) f =
      some (decide (RuleHolds .IPMB_RULE_RANGE (load_field f fid) value high)) := by
  have hlen : (range_program fid value high).length = 15 := rfl
  have hboth : (decide (load_field f fid ≥ value) && decide (load_field f fid ≤ high)) =
      decide (RuleHolds .IPMB_RULE_RANGE (load_field f fid) value high) := by
    rw [← Bool.decide_and]
    rfl
  unfold meaning
  rw [hlen, range_program]
  simp only [List.cons_append, List.append_assoc]
  rw [run_of_next (step_load_field rfl), run_of_next (step_push_int rfl),
    run_of_next (step_push_int rfl), run_of_next (step_range_tests rfl), run_of_next step_and,
    ofBool_ne_zero, ofBool_ne_zero, run_end, ofBool_ne_zero, hboth]

end ipmb.stack_machine

namespace ipmb.route_vm
open ipmb.stack_machine

/-- The program of a rule about a known field decides the rule on the field's
32-bit signed reading. -/
theorem compiled_rule_decides {ast : ipmb_rule_ast_t} {fld : Field} (hfield : ast.field = fld.name) :
    ∃ bc, ipmb_rule_compile Allocator.succeeds ast = (.IPMB_OK, bc) ∧
      ∀ frame, ipmb_vm_evaluate bc frame =
        .ok (.IPMB_OK, decide (RuleHolds ast.op (Int32.ofNat (fld.value frame)) ast.value ast.high)) := by
  have hknown : field_id ast.field ≠ 0 := by
    rw [hfield]
    exact field_id_name_ne_zero fld
  refine ⟨_, ipmb_rule_compile_known ast hknown, ?_⟩
  intro frame
  rw [ipmb_vm_evaluate_eq, ← load_field_name, hfield]
  by_cases hop : ast.op = .IPMB_RULE_RANGE
  · rw [if_pos hop, meaning_range_program, hop]
    rfl
  · rw [if_neg hop, meaning_cmp_program frame _ ast.value ast.high hop]
    rfl

/-- A rule about a known field compiles, and evaluating its program matches a
frame exactly when the rule holds of the field's 32-bit signed reading. A rule
about anything else is refused and leaves no code behind. -/
theorem ipmb_rule_compile_correct (ast : ipmb_rule_ast_t) :
    (∀ fld : Field, ast.field = fld.name →
      ∃ bc, ipmb_rule_compile Allocator.succeeds ast = (.IPMB_OK, bc) ∧
        ∀ frame, ipmb_vm_evaluate bc frame =
          .ok (.IPMB_OK, decide (RuleHolds ast.op (Int32.ofNat (fld.value frame)) ast.value ast.high))) ∧
    ((∀ fld : Field, ast.field ≠ fld.name) →
      ∀ alloc, ipmb_rule_compile alloc ast = (.IPMB_ERR_INVALID, .zero)) := by
  constructor
  · intro fld hfield
    exact compiled_rule_decides hfield
  · intro hfield alloc
    exact ipmb_rule_compile_unknown alloc ast (field_id_eq_zero hfield)

end ipmb.route_vm
