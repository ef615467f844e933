import Ipmb.Routing.RouteVm
import Ipmb.Support.Logged

open fallible logged
open ipmb.endian ipmb.frame_reader ipmb.rule_compiler

namespace ipmb.route_vm

/-- What the evaluator does to memory: it reads a byte of the code, and it
stores to and reads from a slot of the stack. -/
inductive Access where
  | code (i : Nat)
  | write (i : Nat) (v : ipmb_vm_value_t)
  | read (i : Nat) (v : ipmb_vm_value_t)
  deriving DecidableEq

abbrev Vm := Logged Fault Access

def code_logged (bc : ipmb_rule_bytecode_t) (i : Nat) : Vm UInt8 := noting (read_code bc i) fun _ => [.code i]

def code_le32_logged (bc : ipmb_rule_bytecode_t) (i : Nat) : Vm UInt32 :=
  noting (read_code_le32 bc i) fun _ => [.code (i + 3), .code (i + 2), .code (i + 1), .code i]

def push_logged (s : vm_state) (v : ipmb_vm_value_t) : Vm vm_state :=
  noting (push s v) fun _ => [.write s.sp v]

def pop_logged (s : vm_state) : Vm (ipmb_vm_value_t × vm_state) :=
  noting (pop s) fun r => [.read (s.sp - 1) r.1]

/-- A round of the loop that writes its accesses down. -/
def vm_step_logged (bc : ipmb_rule_bytecode_t) (frame : ipmb_frame_t) : vm_state → Vm vm_result :=
  vm_step_with (code_logged bc) (code_le32_logged bc) push_logged pop_logged bc frame

def vm_loop_logged (bc : ipmb_rule_bytecode_t) (frame : ipmb_frame_t) : Nat → vm_state → Vm (ipmb_status_t × Bool) :=
  vm_loop_with (vm_step_logged bc frame) bc

/-- Writing the accesses down changes nothing in a round. -/
theorem vm_step_logged_erases (bc : ipmb_rule_bytecode_t) (frame : ipmb_frame_t) (s : vm_state) :
    Erases (vm_step_logged bc frame s) (vm_step bc frame s) := by
  refine Erases.bind (.noting _ _) fun op => ?_
  refine Erases.ite (.ite (.pure _) ?_) (.ite (.ite (.pure _) ?_) (.ite (.ite (.pure _) ?_) (.ite (.ite (.pure _) ?_)
    (.ite (.ite (.pure _) ?_) (.ite (.ite (.pure _) ?_) (.ite (.ite (.pure _) ?_) (.ite (.ite (.pure _) ?_)
      (.pure _))))))))
  · exact .bind (.noting _ _) fun _ => .bind (.noting _ _) fun _ => .pure _
  · exact .bind (.noting _ _) fun _ => .bind (.noting _ _) fun _ => .pure _
  · exact .bind (.noting _ _) fun _ => .bind (.noting _ _) fun _ => .bind (.noting _ _) fun _ => .pure _
  · exact .bind (.noting _ _) fun _ => .bind (.noting _ _) fun _ => .bind (.noting _ _) fun _ =>
      .bind (.noting _ _) fun _ => .bind (.noting _ _) fun _ => .pure _
  · exact .bind (.noting _ _) fun _ => .bind (.noting _ _) fun _ => .bind (.noting _ _) fun _ => .pure _
  · exact .bind (.noting _ _) fun _ => .bind (.noting _ _) fun _ => .pure _
  · exact .bind (.noting _ _) fun _ => .pure _
  · exact .bind (.noting _ _) fun _ => .pure _

/-- Nor in a run of the loop what a round writes down. -/
theorem vm_loop_with_erases {E : Type} {logged : vm_state → Logged Fault E vm_result}
    {step : vm_state → Except Fault vm_result} (hstep : ∀ s, Erases (logged s) (step s))
    (bc : ipmb_rule_bytecode_t) (fuel : Nat) (s : vm_state) :
    Erases (vm_loop_with logged bc fuel s) (vm_loop_with step bc fuel s) := by
  induction fuel generalizing s with
  | zero =>
    rw [vm_loop_with, vm_loop_with]
    exact .ite (fun _ => rfl) (.pure _)
  | succ fuel ih =>
    rw [vm_loop_with, vm_loop_with]
    refine .ite (.bind (hstep s) fun r => ?_) (.pure _)
    cases r with
    | inl s => exact ih s
    | inr r => exact .pure r

end ipmb.route_vm
