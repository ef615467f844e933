import Ipmb.Routing.StackMachine
import Ipmb.Support.BoundedStack
import Ipmb.Support.Fallible

open bounded_stack fallible
open ipmb.endian ipmb.frame_reader ipmb.rule_compiler

namespace ipmb.route_vm
open ipmb.stack_machine

/-- The abstract stack a state holds. -/
def vm_state.vals (s : vm_state) : List Int32 := (contents s.stack s.sp).map ipmb_vm_value_t.i

theorem vm_state.length_vals {s : vm_state} (h : s.sp ≤ 64) : s.vals.length = s.sp := by
  simp [vm_state.vals, length_contents h]

theorem vm_state.vals_eq_nil {s : vm_state} (h : s.sp = 0) : s.vals = [] := by
  rw [← List.length_eq_zero_iff, vm_state.length_vals (by omega), h]

theorem push_spec (s : vm_state) (v : ipmb_vm_value_t) (h : s.sp < 64) :
    ∃ s', push s v = .ok s' ∧ s'.vals = v.i :: s.vals ∧ s'.sp = s.sp + 1 ∧ s'.pc = s.pc := by
  refine ⟨{ s with stack := s.stack.set s.sp v, sp := s.sp + 1 }, ?_, ?_, rfl, rfl⟩
  · rw [push, dif_pos h]
  · simp [vm_state.vals, contents_set s.stack v h]

theorem pop_spec (s : vm_state) (hpos : 0 < s.sp) (hle : s.sp ≤ 64) :
    ∃ v s', pop s = .ok (v, s') ∧ s.vals = v.i :: s'.vals ∧ s'.sp = s.sp - 1 ∧ s'.pc = s.pc := by
  refine ⟨s.stack[s.sp - 1], { s with sp := s.sp - 1 }, ?_, ?_, rfl, rfl⟩
  · rw [pop, dif_pos ⟨hpos, hle⟩]
  · simp [vm_state.vals, contents_pop s.stack hpos hle]

/-- How a round of the evaluation loop answers a step of the abstract machine:
it reaches the state the step reaches, further on in the code, or it returns
what the step's end is reported as. -/
inductive Simulates (bc : ipmb_rule_bytecode_t) (s : vm_state) :
    vm_result → Option ((List UInt8 × List Int32) ⊕ Bool) → Prop
  | next {s' : vm_state} {code : List UInt8} {st : List Int32} (hcode : bc.code.drop s'.pc = code)
    (hvals : s'.vals = st) (hpc : s.pc < s'.pc) (hsp : s'.sp ≤ 64) :
    Simulates bc s (.inl s') (some (.inl (code, st)))
  | verdict (b : Bool) : Simulates bc s (.inr (.IPMB_OK, b)) (some (.inr b))
  | stuck : Simulates bc s err_eval none

theorem read_code_eq {bc : ipmb_rule_bytecode_t} {i : Nat} {b : UInt8} {rest : List UInt8}
    (h : bc.code.drop i = b :: rest) : read_code bc i = .ok b := by
  have hget : bc.code[i]? = some b := by
    have hhead := List.head?_drop (l := bc.code) (i := i)
    simpa only [h, List.head?_cons] using hhead.symm
  simp only [read_code, hget]

theorem drop_tail {l : List UInt8} {i : Nat} {b : UInt8} {rest : List UInt8}
    (h : l.drop i = b :: rest) : l.drop (i + 1) = rest := by
  have htail := List.tail_drop (l := l) (i := i)
  simpa only [h, List.tail_cons] using htail.symm

/-- Two operands are replaced by one result. -/
theorem binary_spec (s : vm_state) (hlow : 2 ≤ s.sp) (hle : s.sp ≤ 64) :
    ∃ rhs s₁ lhs s₂, pop s = .ok (rhs, s₁) ∧ pop s₁ = .ok (lhs, s₂) ∧
      s.vals = rhs.i :: lhs.i :: s₂.vals ∧ s₂.sp = s.sp - 2 ∧ s₂.pc = s.pc := by
  obtain ⟨rhs, s₁, hpop₁, hvals₁, hsp₁, hpc₁⟩ := pop_spec s (by omega) hle
  obtain ⟨lhs, s₂, hpop₂, hvals₂, hsp₂, hpc₂⟩ := pop_spec s₁ (by omega) (by omega)
  refine ⟨rhs, s₁, lhs, s₂, hpop₁, hpop₂, ?_, by omega, hpc₂.trans hpc₁⟩
  rw [hvals₁, hvals₂]

section rounds
variable {bc : ipmb_rule_bytecode_t} {frame : ipmb_frame_t} {s : vm_state} {rest : List UInt8}

theorem length_drop_tail {b : UInt8} (hcode : bc.code.drop s.pc = b :: rest) :
    s.pc + 1 + rest.length = bc.len := by
  have hlen := congrArg List.length hcode
  rw [List.length_drop, List.length_cons] at hlen
  rw [ipmb_rule_bytecode_t.len]
  omega

theorem round_push_int (hcode : bc.code.drop s.pc = IPMB_OP_PUSH_INT :: rest) (hsp : s.sp ≤ 64) :
    ∃ r, vm_step bc frame s = .ok r ∧
      Simulates bc s r (step full64 frame (IPMB_OP_PUSH_INT :: rest) s.vals) := by
  have hread := read_code_eq hcode
  have hrest := drop_tail hcode
  have hlen := length_drop_tail hcode
  have hdepth := vm_state.length_vals hsp
  by_cases hshort : s.pc + 1 + 4 > bc.len ∨ s.sp ≥ 64
  · refine ⟨err_eval, ?_, ?_⟩
    · simp [vm_step, vm_step_with, hread, hshort]
    · have hstep : step full64 frame (IPMB_OP_PUSH_INT :: rest) s.vals = none := by
        by_cases hfew : rest.length < 4
        · simp [step, decode, hfew]
        · have hfull : 64 ≤ s.sp := by omega
          simp [step, decode, hfew, full64, hdepth, hfull]
      rw [hstep]
      exact .stuck
  · obtain ⟨s', hpush, hvals, hsp', hpc'⟩ := push_spec { s with pc := s.pc + 1 }
      { i := (ipmb_load_le32 rest).toInt32, is_bool := false } (by simp only; omega)
    refine ⟨.inl { s' with pc := s'.pc + 4 }, ?_, ?_⟩
    · have himm : read_code_le32 bc (s.pc + 1) = .ok (ipmb_load_le32 rest) := by
        rw [read_code_le32, if_pos (by omega), hrest]
      simp [vm_step, vm_step_with, hread, hshort, himm, hpush]
    · have hstep : step full64 frame (IPMB_OP_PUSH_INT :: rest) s.vals =
          some (.inl (rest.drop 4, (ipmb_load_le32 rest).toInt32 :: s.vals)) := by
        have hfew : ¬rest.length < 4 := by omega
        have hfull : ¬64 ≤ s.sp := by omega
        simp [step, decode, hfew, full64, hdepth, hfull]
      rw [hstep]
      refine .next ?_ hvals ?_ ?_
      · simp only [hpc', ← hrest, List.drop_drop]
      · simp only [hpc']
        omega
      · simp only at hsp' ⊢
        omega

theorem round_load_field (hcode : bc.code.drop s.pc = IPMB_OP_LOAD_FIELD :: rest) (hsp : s.sp ≤ 64) :
    ∃ r, vm_step bc frame s = .ok r ∧
      Simulates bc s r (step full64 frame (IPMB_OP_LOAD_FIELD :: rest) s.vals) := by
  have hread := read_code_eq hcode
  have hrest := drop_tail hcode
  have hlen := length_drop_tail hcode
  have hdepth := vm_state.length_vals hsp
  have hop : IPMB_OP_LOAD_FIELD ≠ IPMB_OP_PUSH_INT := by decide
  by_cases hshort : s.pc + 1 ≥ bc.len ∨ s.sp ≥ 64
  · refine ⟨err_eval, ?_, ?_⟩
    · simp [vm_step, vm_step_with, hread, hop, hshort]
    · have hstep : step full64 frame (IPMB_OP_LOAD_FIELD :: rest) s.vals = none := by
        cases rest with
        | nil => simp [step, decode, hop]
        | cons id rest =>
          rw [List.length_cons] at hlen
          have hfull : 64 ≤ s.sp := by omega
          simp [step, decode, hop, full64, hdepth, hfull]
      rw [hstep]
      exact .stuck
  · cases rest with
    | nil =>
      rw [List.length_nil] at hlen
      omega
    | cons id rest =>
      have hread' := read_code_eq hrest
      have hrest' := drop_tail hrest
      obtain ⟨s', hpush, hvals, hsp', hpc'⟩ := push_spec { s with pc := s.pc + 1 + 1 }
        { i := load_field frame id, is_bool := false } (by simp only; omega)
      refine ⟨.inl s', ?_, ?_⟩
      · simp [vm_step, vm_step_with, hread, hop, hshort, hread', hpush]
      · have hstep : step full64 frame (IPMB_OP_LOAD_FIELD :: id :: rest) s.vals =
            some (.inl (rest, load_field frame id :: s.vals)) := by
          have hfull : ¬64 ≤ s.sp := by omega
          simp [step, decode, hop, full64, hdepth, hfull]
        rw [hstep]
        refine .next ?_ hvals ?_ ?_
        · rw [hpc', hrest']
        · simp only [hpc']
          omega
        · simp only at hsp' ⊢
          omega

/-- An instruction that takes two operands and leaves a truth value. -/
theorem round_binary {op : UInt8} (g : Int32 → Int32 → Bool)
    (hcode : bc.code.drop s.pc = op :: rest) (hsp : s.sp ≤ 64)
    (hvm : vm_step bc frame s = if s.sp < 2 then pure err_eval else do
      let (rhs, s) ← pop { s with pc := s.pc + 1 }
      let (lhs, s) ← pop s
      let s ← push s { i := if g lhs.i rhs.i then 1 else 0, is_bool := true }
      pure (.inl s))
    (hstep : ∀ st, step full64 frame (op :: rest) st =
      match st with
      | b :: a :: st => some (.inl (rest, ofBool (g a b) :: st))
      | _ => none) :
    ∃ r, vm_step bc frame s = .ok r ∧ Simulates bc s r (step full64 frame (op :: rest) s.vals) := by
  have hrest := drop_tail hcode
  have hdepth := vm_state.length_vals hsp
  by_cases hlow : s.sp < 2
  · refine ⟨err_eval, ?_, ?_⟩
    · simp [hvm, hlow]
    · have hnone : step full64 frame (op :: rest) s.vals = none := by
        rw [hstep]
        match hv : s.vals with
        | [] => rfl
        | [a] => rfl
        | b :: a :: st =>
          rw [hv, List.length_cons, List.length_cons] at hdepth
          omega
      rw [hnone]
      exact .stuck
  · obtain ⟨rhs, s₁, lhs, s₂, hpop₁, hpop₂, hvals, hsp₂, hpc₂⟩ :=
      binary_spec { s with pc := s.pc + 1 } (by simp only; omega) hsp
    obtain ⟨s', hpush, hvals', hsp', hpc'⟩ := push_spec s₂
      { i := if g lhs.i rhs.i then 1 else 0, is_bool := true } (by simp only at hsp₂; omega)
    refine ⟨.inl s', ?_, ?_⟩
    · simp [hvm, hlow, hpop₁, hpop₂, hpush]
    · have hvals₀ : s.vals = rhs.i :: lhs.i :: s₂.vals := hvals
      rw [hstep, hvals₀]
      simp only at hpc₂ hsp₂
      refine .next ?_ hvals' ?_ ?_
      · rw [hpc', hpc₂, hrest]
      · omega
      · omega

theorem round_cmp_eq (hcode : bc.code.drop s.pc = IPMB_OP_CMP_EQ :: rest) (hsp : s.sp ≤ 64) :
    ∃ r, vm_step bc frame s = .ok r ∧
      Simulates bc s r (step full64 frame (IPMB_OP_CMP_EQ :: rest) s.vals) := by
  have hread := read_code_eq hcode
  refine round_binary (fun lhs rhs => decide (lhs = rhs)) hcode hsp ?_ ?_
  · rw [vm_step, vm_step_with, hread]
    rfl
  · rintro (_ | ⟨b, _ | ⟨a, st⟩⟩) <;> rfl

theorem round_cmp_gt (hcode : bc.code.drop s.pc = IPMB_OP_CMP_GT :: rest) (hsp : s.sp ≤ 64) :
    ∃ r, vm_step bc frame s = .ok r ∧
      Simulates bc s r (step full64 frame (IPMB_OP_CMP_GT :: rest) s.vals) := by
  have hread := read_code_eq hcode
  refine round_binary (fun lhs rhs => decide (lhs > rhs)) hcode hsp ?_ ?_
  · rw [vm_step, vm_step_with, hread]
    rfl
  · rintro (_ | ⟨b, _ | ⟨a, st⟩⟩) <;> rfl

theorem round_cmp_lt (hcode : bc.code.drop s.pc = IPMB_OP_CMP_LT :: rest) (hsp : s.sp ≤ 64) :
    ∃ r, vm_step bc frame s = .ok r ∧
      Simulates bc s r (step full64 frame (IPMB_OP_CMP_LT :: rest) s.vals) := by
  have hread := read_code_eq hcode
  refine round_binary (fun lhs rhs => decide (lhs < rhs)) hcode hsp ?_ ?_
  · rw [vm_step, vm_step_with, hread]
    rfl
  · rintro (_ | ⟨b, _ | ⟨a, st⟩⟩) <;> rfl

theorem round_and (hcode : bc.code.drop s.pc = IPMB_OP_AND :: rest) (hsp : s.sp ≤ 64) :
    ∃ r, vm_step bc frame s = .ok r ∧
      Simulates bc s r (step full64 frame (IPMB_OP_AND :: rest) s.vals) := by
  have hread := read_code_eq hcode
  refine round_binary (fun lhs rhs => decide (lhs ≠ 0) && decide (rhs ≠ 0)) hcode hsp ?_ ?_
  · rw [vm_step, vm_step_with, hread]
    rfl
  · rintro (_ | ⟨b, _ | ⟨a, st⟩⟩) <;> rfl

theorem round_or (hcode : bc.code.drop s.pc = IPMB_OP_OR :: rest) (hsp : s.sp ≤ 64) :
    ∃ r, vm_step bc frame s = .ok r ∧
      Simulates bc s r (step full64 frame (IPMB_OP_OR :: rest) s.vals) := by
  have hread := read_code_eq hcode
  refine round_binary (fun lhs rhs => decide (lhs ≠ 0) || decide (rhs ≠ 0)) hcode hsp ?_ ?_
  · rw [vm_step, vm_step_with, hread]
    rfl
  · rintro (_ | ⟨b, _ | ⟨a, st⟩⟩) <;> rfl

/-- The machine's range test leaves both comparisons, which takes a free slot. -/
theorem step_range (st : List Int32) :
    step full64 frame (IPMB_OP_RANGE :: rest) st =
      if full64 st.length then none
      else match st with
        | high :: low :: value :: st =>
          some (.inl (rest, ofBool (decide (value ≤ high)) :: ofBool (decide (value ≥ low)) :: st))
        | _ => none := by
  have hstep : step full64 frame (IPMB_OP_RANGE :: rest) st =
      if full64 st.length then none else (exec frame .range st).map fun st => .inl (rest, st) := rfl
  rw [hstep]
  split
  · rfl
  · rcases st with _ | ⟨high, _ | ⟨low, _ | ⟨value, st⟩⟩⟩ <;> rfl

theorem round_range (hcode : bc.code.drop s.pc = IPMB_OP_RANGE :: rest) (hsp : s.sp ≤ 64) :
    ∃ r, vm_step bc frame s = .ok r ∧
      Simulates bc s r (step full64 frame (IPMB_OP_RANGE :: rest) s.vals) := by
  have hread := read_code_eq hcode
  have hrest := drop_tail hcode
  have hdepth := vm_state.length_vals hsp
  have hvm : vm_step bc frame s = if s.sp < 3 ∨ s.sp ≥ 64 then pure err_eval else (do
      let (high, s) ← pop { s with pc := s.pc + 1 }
      let (low, s) ← pop s
      let (value, s) ← pop s
      let s ← push s { i := if value.i ≥ low.i then 1 else 0, is_bool := true }
      let s ← push s { i := if value.i ≤ high.i then 1 else 0, is_bool := true }
      pure (.inl s)) := by
    rw [vm_step, vm_step_with, hread]
    rfl
  by_cases hrefused : s.sp < 3 ∨ s.sp ≥ 64
  · refine ⟨err_eval, ?_, ?_⟩
    · simp [hvm, hrefused]
    · have hnone : step full64 frame (IPMB_OP_RANGE :: rest) s.vals = none := by
        rw [step_range, full64, hdepth]
        by_cases hfull : 64 ≤ s.sp
        · simp [hfull]
        · match hv : s.vals with
          | [] | [_] | [_, _] => simp
          | _ :: _ :: _ :: _ =>
            simp only [hv, List.length_cons] at hdepth
            omega
      rw [hnone]
      exact .stuck
  · obtain ⟨high, s₁, low, s₂, hpop₁, hpop₂, hvals, hsp₂, hpc₂⟩ :=
      binary_spec { s with pc := s.pc + 1 } (by simp only; omega) hsp
    simp only at hpc₂ hsp₂
    obtain ⟨value, s₃, hpop₃, hvals₃, hsp₃, hpc₃⟩ := pop_spec s₂ (by omega) (by omega)
    obtain ⟨s₄, hpush₄, hvals₄, hsp₄, hpc₄⟩ := push_spec s₃
      { i := if value.i ≥ low.i then 1 else 0, is_bool := true } (by omega)
    obtain ⟨s₅, hpush₅, hvals₅, hsp₅, hpc₅⟩ := push_spec s₄
      { i := if value.i ≤ high.i then 1 else 0, is_bool := true } (by omega)
    refine ⟨.inl s₅, ?_, ?_⟩
    · rw [hvm, if_neg hrefused]
      simp only [hpop₁, hpop₂, hpop₃, ok_bind, hpush₄, hpush₅, pure_eq_ok]
    · have hvals₀ : s.vals = high.i :: low.i :: value.i :: s₃.vals := by
        rw [← hvals₃]
        exact hvals
      have hroom : full64 s.vals.length = false := by
        simp only [full64, hdepth, decide_eq_false_iff_not]
        omega
      rw [step_range, hroom, hvals₀]
      refine .next ?_ ?_ ?_ ?_
      · rw [hpc₅, hpc₄, hpc₃, hpc₂, hrest]
      · simp [hvals₅, hvals₄, ofBool]
      · omega
      · omega

theorem round_not (hcode : bc.code.drop s.pc = IPMB_OP_NOT :: rest) (hsp : s.sp ≤ 64) :
    ∃ r, vm_step bc frame s = .ok r ∧
      Simulates bc s r (step full64 frame (IPMB_OP_NOT :: rest) s.vals) := by
  have hread := read_code_eq hcode
  have hrest := drop_tail hcode
  have hvm : vm_step bc frame s = if s.sp < 1 then pure err_eval else (do
      let (top, s) ← pop { s with pc := s.pc + 1 }
      let s ← push s { i := if top.i = 0 then 1 else 0, is_bool := true }
      pure (.inl s)) := by
    rw [vm_step, vm_step_with, hread]
    rfl
  by_cases hempty : s.sp < 1
  · refine ⟨err_eval, ?_, ?_⟩
    · simp [hvm, hempty]
    · rw [vm_state.vals_eq_nil (Nat.lt_one_iff.mp hempty)]
      exact .stuck
  · obtain ⟨top, s₁, hpop, hvals, hsp₁, hpc₁⟩ :=
      pop_spec { s with pc := s.pc + 1 } (by simp only; omega) hsp
    simp only at hsp₁ hpc₁
    obtain ⟨s', hpush, hvals', hsp', hpc'⟩ := push_spec s₁
      { i := if top.i = 0 then 1 else 0, is_bool := true } (by omega)
    refine ⟨.inl s', ?_, ?_⟩
    · simp [hvm, hempty, hpop, hpush]
    · have hvals₀ : s.vals = top.i :: s₁.vals := hvals
      have hstep : step full64 frame (IPMB_OP_NOT :: rest) s.vals =
          some (.inl (rest, ofBool (decide (top.i = 0)) :: s₁.vals)) := by
        rw [hvals₀]
        rfl
      rw [hstep]
      refine .next ?_ ?_ ?_ ?_
      · rw [hpc', hpc₁, hrest]
      · simp [hvals', ofBool]
      · omega
      · omega

theorem round_action {op : UInt8} (hop : op = IPMB_OP_FORWARD ∨ op = IPMB_OP_TAG)
    (hcode : bc.code.drop s.pc = op :: rest) (hsp : s.sp ≤ 64) :
    ∃ r, vm_step bc frame s = .ok r ∧ Simulates bc s r (step full64 frame (op :: rest) s.vals) := by
  have hread := read_code_eq hcode
  have hrest := drop_tail hcode
  have hlen := length_drop_tail hcode
  have hvm : vm_step bc frame s = if s.pc + 1 ≥ bc.len then pure err_eval else (do
      let n ← read_code bc (s.pc + 1)
      pure (.inl { s with pc := s.pc + 1 + (n.toNat + 1) })) := by
    rw [vm_step, vm_step_with, hread]
    obtain rfl | rfl := hop <;> rfl
  cases rest with
  | nil =>
    rw [List.length_nil] at hlen
    refine ⟨err_eval, ?_, ?_⟩
    · rw [hvm, if_pos (by omega)]
      rfl
    · obtain rfl | rfl := hop <;> exact .stuck
  | cons n rest =>
    rw [List.length_cons] at hlen
    have hread' := read_code_eq hrest
    refine ⟨.inl { s with pc := s.pc + 1 + (n.toNat + 1) }, ?_, ?_⟩
    · rw [hvm, if_neg (by omega), hread']
      rfl
    · have hstep : step full64 frame (op :: n :: rest) s.vals =
          some (.inl (rest.drop n.toNat, s.vals)) := by
        obtain rfl | rfl := hop <;> rfl
      rw [hstep]
      refine .next ?_ rfl ?_ hsp
      · simp only
        rw [← drop_tail hrest, List.drop_drop]
        congr 1
        omega
      · simp only
        omega

theorem round_end (hcode : bc.code.drop s.pc = IPMB_OP_END :: rest) (hsp : s.sp ≤ 64) :
    ∃ r, vm_step bc frame s = .ok r ∧
      Simulates bc s r (step full64 frame (IPMB_OP_END :: rest) s.vals) := by
  have hread := read_code_eq hcode
  have hvm : vm_step bc frame s = if s.sp = 0 then pure err_eval else (do
      let (top, _) ← pop { s with pc := s.pc + 1 }
      pure (.inr (.IPMB_OK, decide (top.i ≠ 0)))) := by
    rw [vm_step, vm_step_with, hread]
    rfl
  by_cases hempty : s.sp = 0
  · refine ⟨err_eval, ?_, ?_⟩
    · simp [hvm, hempty]
    · rw [vm_state.vals_eq_nil hempty]
      exact .stuck
  · obtain ⟨top, s₁, hpop, hvals, hsp₁, hpc₁⟩ :=
      pop_spec { s with pc := s.pc + 1 } (by simp only; omega) hsp
    refine ⟨.inr (.IPMB_OK, decide (top.i ≠ 0)), ?_, ?_⟩
    · simp [hvm, hempty, hpop]
    · have hvals₀ : s.vals = top.i :: s₁.vals := hvals
      rw [hvals₀]
      exact .verdict (decide (top.i ≠ 0))

/-- A round of the evaluation loop stays inside the code and the stack, and
does what the abstract machine does. -/
theorem vm_step_simulates (hpc : s.pc < bc.len) (hsp : s.sp ≤ 64) :
    ∃ r, vm_step bc frame s = .ok r ∧
      Simulates bc s r (step full64 frame (bc.code.drop s.pc) s.vals) := by
  cases hcode : bc.code.drop s.pc with
  | nil =>
    rw [List.drop_eq_nil_iff, ← ipmb_rule_bytecode_t.len] at hcode
    omega
  | cons op rest =>
    by_cases hpush : op = IPMB_OP_PUSH_INT
    · subst hpush
      exact round_push_int hcode hsp
    by_cases hload : op = IPMB_OP_LOAD_FIELD
    · subst hload
      exact round_load_field hcode hsp
    by_cases heq : op = IPMB_OP_CMP_EQ
    · subst heq
      exact round_cmp_eq hcode hsp
    by_cases hgt : op = IPMB_OP_CMP_GT
    · subst hgt
      exact round_cmp_gt hcode hsp
    by_cases hlt : op = IPMB_OP_CMP_LT
    · subst hlt
      exact round_cmp_lt hcode hsp
    by_cases hrange : op = IPMB_OP_RANGE
    · subst hrange
      exact round_range hcode hsp
    by_cases hand : op = IPMB_OP_AND
    · subst hand
      exact round_and hcode hsp
    by_cases hor : op = IPMB_OP_OR
    · subst hor
      exact round_or hcode hsp
    by_cases hnot : op = IPMB_OP_NOT
    · subst hnot
      exact round_not hcode hsp
    by_cases haction : op = IPMB_OP_FORWARD ∨ op = IPMB_OP_TAG
    · exact round_action haction hcode hsp
    by_cases hend : op = IPMB_OP_END
    · subst hend
      exact round_end hcode hsp
    -- the opcodes the machine does not have
    refine ⟨err_eval, ?_, ?_⟩
    · rw [vm_step, vm_step_with, read_code_eq hcode]
      simp [hpush, hload, heq, hgt, hlt, hrange, hand, hor, hnot, haction, hend]
    · have hstep : step full64 frame (op :: rest) s.vals = none := by
        simp [step, decode, hpush, hload, heq, hgt, hlt, hrange, hand, hor, hnot, haction, hend]
      rw [hstep]
      exact .stuck

end rounds

theorem run_nil (full : Nat → Bool) (f : ipmb_frame_t) (fuel : Nat) (st : List Int32) :
    run full f fuel [] st = none := by
  cases fuel <;> rfl

theorem vm_loop_eq_run (bc : ipmb_rule_bytecode_t) (frame : ipmb_frame_t) (fuel : Nat) (s : vm_state)
    (hfuel : bc.len ≤ s.pc + fuel) (hsp : s.sp ≤ 64) :
    vm_loop bc frame fuel s = .ok (report (run full64 frame fuel (bc.code.drop s.pc) s.vals)) := by
  rw [vm_loop]
  induction fuel generalizing s with
  | zero =>
    rw [vm_loop_with, if_neg (by omega)]
    rfl
  | succ fuel ih =>
    by_cases hpc : s.pc < bc.len
    · obtain ⟨r, hstep, hsim⟩ : ∃ r, vm_step bc frame s = .ok r ∧
          Simulates bc s r (step full64 frame (bc.code.drop s.pc) s.vals) := vm_step_simulates hpc hsp
      rw [vm_loop_with, if_pos hpc, hstep, ok_bind, run]
      generalize step full64 frame (bc.code.drop s.pc) s.vals = a at hsim
      cases hsim with
      | next hcode hvals hpc' hsp' =>
        simp only
        rw [ih _ (by omega) hsp', hcode, hvals]
      | verdict b => rfl
      | stuck => rfl
    · have hnil : bc.code.drop s.pc = [] := by
        rw [List.drop_eq_nil_iff, ← ipmb_rule_bytecode_t.len]
        omega
      rw [vm_loop_with, if_neg hpc, hnil, run_nil]
      rfl

/-- Evaluation never leaves the code or the stack and always returns: it
reports what the program means on the machine with 64 slots. -/
theorem ipmb_vm_evaluate_eq (bc : ipmb_rule_bytecode_t) (frame : ipmb_frame_t) :
    ipmb_vm_evaluate bc frame = .ok (report (meaning bc.code frame)) := by
  have hvals : vm_init.vals = [] := by
    simp [vm_state.vals, vm_init]
  have hloop := vm_loop_eq_run bc frame bc.len vm_init (by omega) (by simp [vm_init])
  rw [hvals] at hloop
  exact hloop

end ipmb.route_vm
