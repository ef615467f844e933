import Ipmb.Routing.Compiled
import Ipmb.Routing.VmAccess

open fallible logged
open ipmb.endian ipmb.frame_reader ipmb.rule_parser ipmb.rule_compiler

namespace ipmb.rule_analyzer

/-- Every byte that is the number of an opcode is counted. -/
def ipmb_rule_bytecode_instruction_count (bc : ipmb_rule_bytecode_t) : Nat :=
  bc.code.foldl (fun n b => n + if b ≥ 1 ∧ b ≤ 13 then 1 else 0) 0

/-- A byte that the count takes for an opcode. -/
def looks_like_opcode (b : UInt8) : Bool := decide (b ≥ 1 ∧ b ≤ 13)

theorem ipmb_rule_bytecode_instruction_count_eq (bc : ipmb_rule_bytecode_t) :
    ipmb_rule_bytecode_instruction_count bc = bc.code.countP looks_like_opcode := by
  have hloop (code : List UInt8) (n : Nat) :
      code.foldl (fun n b => n + if b ≥ 1 ∧ b ≤ 13 then 1 else 0) n =
        n + code.countP looks_like_opcode := by
    induction code generalizing n with
    | nil => rfl
    | cons b code ih =>
      rw [List.foldl_cons, ih, List.countP_cons]
      simp only [looks_like_opcode, decide_eq_true_eq]
      omega
  rw [ipmb_rule_bytecode_instruction_count, hloop, Nat.zero_add]

/-- The bytes of a rule's immediates. -/
def immediate_bytes (ast : ipmb_rule_ast_t) : List UInt8 :=
  if ast.op = .IPMB_RULE_RANGE then
    ipmb_store_le32 ast.value.toUInt32 ++ ipmb_store_le32 ast.high.toUInt32
  else ipmb_store_le32 ast.value.toUInt32

end ipmb.rule_analyzer

namespace ipmb.route_vm
open ipmb.stack_machine

/-- A round that writes down that there was one. -/
def vm_step_counted (bc : ipmb_rule_bytecode_t) (frame : ipmb_frame_t) (s : vm_state) : Logged Fault Unit vm_result :=
  noting (vm_step bc frame s) fun _ => [()]

/-- The evaluation together with the number of its rounds, each of which executes
one instruction. -/
def vm_evaluate_counted (bc : ipmb_rule_bytecode_t) (frame : ipmb_frame_t) :
    Except Fault (Nat × (ipmb_status_t × Bool)) :=
  (fun r => (r.2.length, r.1)) <$> (vm_loop_with (vm_step_counted bc frame) bc bc.len vm_init).run []

/-- Without the number it is the evaluation. -/
theorem vm_evaluate_counted_snd (bc : ipmb_rule_bytecode_t) (frame : ipmb_frame_t) :
    Prod.snd <$> vm_evaluate_counted bc frame = ipmb_vm_evaluate bc frame := by
  have herases : ∀ s, Erases (vm_step_counted bc frame s) (vm_step bc frame s) := fun s => .noting _ _
  rw [vm_evaluate_counted, Functor.map_map]
  exact vm_loop_with_erases herases bc bc.len vm_init []

/-- On a run to a verdict the rounds are the steps of the abstract machine. -/
theorem vm_loop_counted_eq_rounds {bc : ipmb_rule_bytecode_t} {frame : ipmb_frame_t} {fuel : Nat}
    {s : vm_state} {b : Bool} (log : List Unit) (hsp : s.sp ≤ 64)
    (hrun : run full64 frame fuel (bc.code.drop s.pc) s.vals = some b) :
    ∃ log', (vm_loop_with (vm_step_counted bc frame) bc fuel s).run log = .ok ((.IPMB_OK, b), log') ∧
      log'.length = transition.rounds (machine full64 frame) fuel (bc.code.drop s.pc, s.vals) + log.length := by
  induction fuel generalizing s log with
  | zero => cases hrun
  | succ fuel ih =>
    have hpc : s.pc < bc.len := by
      by_contra hend
      have hnil : bc.code.drop s.pc = [] := by
        rw [List.drop_eq_nil_iff, ← ipmb_rule_bytecode_t.len]
        omega
      rw [hnil, run_nil] at hrun
      cases hrun
    obtain ⟨r, hstep, hsim⟩ : ∃ r, vm_step bc frame s = .ok r ∧
        Simulates bc s r (step full64 frame (bc.code.drop s.pc) s.vals) := vm_step_simulates hpc hsp
    have hcounted : (vm_step_counted bc frame s).run log = .ok (r, () :: log) := by
      rw [vm_step_counted, hstep]
      rfl
    rw [vm_loop_with, if_pos hpc, StateT.run_bind, hcounted, ok_bind]
    rw [run] at hrun
    cases ha : step full64 frame (bc.code.drop s.pc) s.vals with
    | none =>
      rw [ha] at hrun
      cases hrun
    | some a =>
      rw [ha] at hsim hrun
      cases hsim with
      | next hcode hvals hpc' hsp' =>
        subst hcode hvals
        obtain ⟨log', hloop, hlength⟩ := ih (() :: log) hsp' hrun
        refine ⟨log', hloop, ?_⟩
        rw [transition.rounds_of_next (machine_next ha), hlength, List.length_cons]
        omega
      | verdict b' =>
        cases hrun
        refine ⟨() :: log, rfl, ?_⟩
        rw [transition.rounds_of_end (machine_end ha), List.length_cons]
        omega

theorem vm_evaluate_counted_eq_rounds {bc : ipmb_rule_bytecode_t} {frame : ipmb_frame_t} {b : Bool}
    (h : meaning bc.code frame = some b) :
    vm_evaluate_counted bc frame =
      .ok (transition.rounds (machine full64 frame) bc.len (bc.code, []), (.IPMB_OK, b)) := by
  have hvals : vm_init.vals = [] := vm_state.vals_eq_nil rfl
  have hrun : run full64 frame bc.len (bc.code.drop vm_init.pc) vm_init.vals = some b := by
    rw [hvals]
    exact h
  obtain ⟨log, hloop, hlength⟩ := vm_loop_counted_eq_rounds [] (Nat.zero_le 64) hrun
  rw [hvals] at hlength
  rw [vm_evaluate_counted, hloop, map_ok, hlength]
  rfl

section programs
variable (frame : ipmb_frame_t) (fid : UInt8) (value high : Int32)

/-- A comparison loads the field and the value, compares and ends. -/
theorem rounds_cmp_program {op : ipmb_rule_op_t} (hop : op ≠ .IPMB_RULE_RANGE) :
    transition.rounds (machine full64 frame) (cmp_program fid op value).length
      (cmp_program fid op value, []) = 4 := by
  have hlen : (cmp_program fid op value).length = 9 := rfl
  rw [hlen, cmp_program, List.cons_append, List.cons_append, List.cons_append,
    transition.rounds_of_next (machine_next (step_load_field rfl)),
    transition.rounds_of_next (machine_next (step_push_int rfl)),
    transition.rounds_of_next (machine_next (step_cmp 0 hop)),
    transition.rounds_of_end (machine_end step_end)]

/-- A range loads the field and both bounds, makes both tests, joins them and
ends. -/
theorem rounds_range_program :
    transition.rounds (machine full64 frame) (range_program fid value high).length
      (range_program fid value high, []) = 6 := by
  have hlen : (range_program fid value high).length = 15 := rfl
  rw [hlen, range_program]
  simp only [List.cons_append, List.append_assoc]
  rw [transition.rounds_of_next (machine_next (step_load_field rfl)),
    transition.rounds_of_next (machine_next (step_push_int rfl)),
    transition.rounds_of_next (machine_next (step_push_int rfl)),
    transition.rounds_of_next (machine_next (step_range_tests rfl)),
    transition.rounds_of_next (machine_next step_and),
    transition.rounds_of_end (machine_end step_end)]

end programs

end ipmb.route_vm

namespace ipmb.rule_analyzer
open ipmb.route_vm ipmb.stack_machine

/-- The number of a known field is taken for an opcode. -/
theorem looks_like_opcode_field_id {field : List UInt8} (h : field_id field ≠ 0) :
    looks_like_opcode (field_id field) = true := by
  unfold field_id at h ⊢
  split_ifs at h ⊢ <;> first | rfl | exact absurd rfl h

theorem looks_like_opcode_cmp_opcode (op : ipmb_rule_op_t) : looks_like_opcode (cmp_opcode op) = true := by
  cases op <;> rfl

theorem count_cmp_program {fid : UInt8} (hfid : looks_like_opcode fid = true) (op : ipmb_rule_op_t)
    (value : Int32) :
    (cmp_program fid op value).countP looks_like_opcode =
      5 + (ipmb_store_le32 value.toUInt32).countP looks_like_opcode := by
  have hopcode := looks_like_opcode_cmp_opcode op
  have hload : looks_like_opcode IPMB_OP_LOAD_FIELD = true := rfl
  have hpush : looks_like_opcode IPMB_OP_PUSH_INT = true := rfl
  have hend : looks_like_opcode IPMB_OP_END = true := rfl
  simp only [cmp_program, List.cons_append, List.countP_cons, List.countP_append, List.countP_nil, hload,
    hfid, hpush, hopcode, hend, if_true]
  omega

theorem count_range_program {fid : UInt8} (hfid : looks_like_opcode fid = true) (value high : Int32) :
    (range_program fid value high).countP looks_like_opcode =
      7 + (ipmb_store_le32 value.toUInt32 ++ ipmb_store_le32 high.toUInt32).countP looks_like_opcode := by
  have hload : looks_like_opcode IPMB_OP_LOAD_FIELD = true := rfl
  have hpush : looks_like_opcode IPMB_OP_PUSH_INT = true := rfl
  have hrange : looks_like_opcode IPMB_OP_RANGE = true := rfl
  have hand : looks_like_opcode IPMB_OP_AND = true := rfl
  have hend : looks_like_opcode IPMB_OP_END = true := rfl
  simp only [range_program, List.cons_append, List.countP_cons, List.countP_append, List.countP_nil, hload,
    hfid, hpush, hrange, hand, hend, if_true]
  omega

/-- A program that runs to a verdict in so many steps, with so many bytes
counted besides its instructions. -/
theorem counted_of_meaning {bc : ipmb_rule_bytecode_t} {frame : ipmb_frame_t} {b : Bool} {n k : Nat}
    (hmeaning : meaning bc.code frame = some b)
    (hrounds : transition.rounds (machine full64 frame) bc.code.length (bc.code, []) = n)
    (hcount : bc.code.countP looks_like_opcode = n + 1 + k) :
    ∃ n matched, vm_evaluate_counted bc frame = .ok (n, (.IPMB_OK, matched)) ∧
      ipmb_vm_evaluate bc frame = .ok (.IPMB_OK, matched) ∧
      ipmb_rule_bytecode_instruction_count bc = n + 1 + k ∧
      ipmb_rule_bytecode_instruction_count bc ≠ n := by
  have hcounted : vm_evaluate_counted bc frame = .ok (n, (.IPMB_OK, b)) := by
    rw [vm_evaluate_counted_eq_rounds hmeaning, ipmb_rule_bytecode_t.len, hrounds]
  have hevaluate : ipmb_vm_evaluate bc frame = .ok (.IPMB_OK, b) := by
    rw [← vm_evaluate_counted_snd, hcounted, map_ok]
  rw [ipmb_rule_bytecode_instruction_count_eq, hcount]
  exact ⟨n, b, hcounted, hevaluate, rfl, by omega⟩

/-- Evaluating a compiled rule comes to its end, but the count is more than the
instructions executed: by the operand byte that numbers the field, and by every
byte of an immediate that is the number of an opcode. -/
theorem ipmb_rule_bytecode_instruction_count_ne_executed {alloc : Allocator} {ast : ipmb_rule_ast_t}
    {bc : ipmb_rule_bytecode_t} (h : ipmb_rule_compile alloc ast = (.IPMB_OK, bc)) (frame : ipmb_frame_t) :
    ∃ n matched, vm_evaluate_counted bc frame = .ok (n, (.IPMB_OK, matched)) ∧
      ipmb_vm_evaluate bc frame = .ok (.IPMB_OK, matched) ∧
      ipmb_rule_bytecode_instruction_count bc =
        n + 1 + (immediate_bytes ast).countP looks_like_opcode ∧
      ipmb_rule_bytecode_instruction_count bc ≠ n := by
  obtain ⟨hfield, hcompile⟩ := ipmb_rule_compile_ok h
  have hfid := looks_like_opcode_field_id hfield
  rw [ipmb_rule_compile_known ast hfield] at hcompile
  cases hcompile
  rw [immediate_bytes]
  by_cases hop : ast.op = .IPMB_RULE_RANGE
  · simp only [if_pos hop]
    apply counted_of_meaning (meaning_range_program frame (field_id ast.field) ast.value ast.high)
    · exact rounds_range_program frame (field_id ast.field) ast.value ast.high
    · exact count_range_program hfid ast.value ast.high
  · simp only [if_neg hop]
    apply counted_of_meaning (meaning_cmp_program frame (field_id ast.field) ast.value ast.high hop)
    · exact rounds_cmp_program frame (field_id ast.field) ast.value hop
    · exact count_cmp_program hfid ast.op ast.value

/-- The rule `type == 0`. -/
def type_zero_ast : ipmb_rule_ast_t where
  field := str_type
  op := .IPMB_RULE_CMP_EQ
  value := 0
  high := 0
  action := []
  priority := 10

def type_zero_program : ipmb_rule_bytecode_t where
  code := [3, 1, 1, 0, 0, 0, 0, 4, 13]

theorem ipmb_rule_bytecode_instruction_count_ne_executed_type_zero :
    ∃ n matched, vm_evaluate_counted type_zero_program empty_frame = .ok (n, (.IPMB_OK, matched)) ∧
      ipmb_vm_evaluate type_zero_program empty_frame = .ok (.IPMB_OK, matched) ∧
      ipmb_rule_bytecode_instruction_count type_zero_program =
        n + 1 + (immediate_bytes type_zero_ast).countP looks_like_opcode ∧
      ipmb_rule_bytecode_instruction_count type_zero_program ≠ n :=
  have hcompile : ipmb_rule_compile Allocator.succeeds type_zero_ast = (.IPMB_OK, type_zero_program) := by
    decide
  ipmb_rule_bytecode_instruction_count_ne_executed hcompile empty_frame

/-- Four instructions are executed, five are counted. -/
theorem type_zero_counts_field_number :
    ipmb_rule_compile Allocator.succeeds type_zero_ast = (.IPMB_OK, type_zero_program) ∧
      vm_evaluate_counted type_zero_program empty_frame = .ok (4, (.IPMB_OK, true)) ∧
      ipmb_rule_bytecode_instruction_count type_zero_program = 5 := by
  refine ⟨?_, ?_, ?_⟩
  · decide
  · have hmeaning : meaning type_zero_program.code empty_frame = some true := by decide
    have hrounds : transition.rounds (machine full64 empty_frame) type_zero_program.len
        (type_zero_program.code, []) = 4 := by decide
    rw [vm_evaluate_counted_eq_rounds hmeaning, hrounds]
  · decide

end ipmb.rule_analyzer
