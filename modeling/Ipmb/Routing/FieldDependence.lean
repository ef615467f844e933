import Ipmb.Routing.Compiled
import Ipmb.Routing.MachineRuns

open ipmb.endian ipmb.frame_reader ipmb.rule_compiler ipmb.route_vm ipmb.stack_machine

namespace ipmb.field_dependence

/-- The instructions that are decoded one after the other, up to an end, with a bound
on how many. -/
def instructions_from : Nat → List UInt8 → List Instr
  | 0, _ => []
  | fuel + 1, code =>
    match decode code with
    | none => []
    | some (i, rest) => if i = .stop then [.stop] else i :: instructions_from fuel rest

/-- The instructions of a program, each of which has a byte at least. -/
def instructions (code : List UInt8) : List Instr := instructions_from code.length code

/-- One of the instructions of the program loads the field. -/
def Loads (code : List UInt8) (id : UInt8) : Prop := .loadField id ∈ instructions code

instance (code : List UInt8) (id : UInt8) : Decidable (Loads code id) := inferInstanceAs (Decidable (_ ∈ _))

section steps
variable {full : Nat → Bool} {f f' : ipmb_frame_t} {code rest : List UInt8} {st : List Int32} {i : Instr}

theorem instructions_from_eq {m n : Nat} (hm : code.length ≤ m) (hn : code.length ≤ n) :
    instructions_from m code = instructions_from n code := by
  induction m generalizing n code with
  | zero =>
    obtain rfl := List.eq_nil_of_length_eq_zero (Nat.le_zero.mp hm)
    cases n <;> rfl
  | succ m ih =>
    cases n with
    | zero =>
      obtain rfl := List.eq_nil_of_length_eq_zero (Nat.le_zero.mp hn)
      rfl
    | succ n =>
      rw [instructions_from, instructions_from]
      cases hdecode : decode code with
      | none => rfl
      | some d =>
        have hshorter := decode_length_lt hdecode
        dsimp only
        rw [ih (by omega) (n := n) (by omega)]

theorem instructions_of_decode (h : decode code = some (i, rest)) :
    instructions code = if i = .stop then [.stop] else i :: instructions rest := by
  have hshorter := decode_length_lt h
  have hpos : code.length = (code.length - 1) + 1 := by omega
  rw [instructions, hpos, instructions_from, h]
  dsimp only
  rw [instructions, instructions_from_eq (by omega) (Nat.le_refl rest.length)]

/-- A program loads what its first instruction loads, and what those behind it do. -/
theorem loads_first {id : UInt8} (h : decode code = some (.loadField id, rest)) : Loads code id := by
  rw [Loads, instructions_of_decode h, if_neg (by simp)]
  exact List.mem_cons_self

theorem Loads.of_rest {id : UInt8} (h : decode code = some (i, rest)) (hi : i ≠ .stop) (hloads : Loads rest id) :
    Loads code id := by
  rw [Loads, instructions_of_decode h, if_neg hi]
  exact List.mem_cons_of_mem i hloads

/-- Frames that agree on what is loaded are taken through the same step. -/
theorem step_eq_of_loads (hagree : ∀ id, Loads code id → load_field f id = load_field f' id) :
    step full f code st = step full f' code st := by
  cases hdecode : decode code with
  | none => simp only [step, hdecode]
  | some d =>
    obtain ⟨i, rest⟩ := d
    by_cases hstop : i = .stop
    · subst hstop
      rw [step_stop hdecode, step_stop hdecode]
    · have hexec : exec f i st = exec f' i st := by
        cases i with
        | loadField id => rw [exec_loadField, exec_loadField, hagree id (loads_first hdecode)]
        | _ => rcases st with _ | ⟨a, _ | ⟨b, _ | ⟨c, st⟩⟩⟩ <;> rfl
      rw [step_exec hdecode hstop, step_exec hdecode hstop, hexec]

theorem run_eq_of_loads (fuel : Nat) (hagree : ∀ id, Loads code id → load_field f id = load_field f' id) :
    run full f fuel code st = run full f' fuel code st := by
  induction fuel generalizing code st with
  | zero => rfl
  | succ fuel ih =>
    cases hstep : step full f' code st with
    | none => rw [run, run, step_eq_of_loads hagree, hstep]
    | some r =>
      cases r with
      | inr b => rw [run, run, step_eq_of_loads hagree, hstep]
      | inl s =>
        obtain ⟨code', st'⟩ := s
        obtain ⟨i, hdecode, -, -⟩ := step_next_cases hstep
        have hi : i ≠ .stop := by
          rintro rfl
          rw [step_stop hdecode] at hstep
          obtain ⟨_, _, hend⟩ := Option.map_eq_some_iff.mp hstep
          cases hend
        rw [run_of_next hstep, run_of_next ((step_eq_of_loads hagree).trans hstep)]
        exact ih fun id hloads => hagree id (hloads.of_rest hdecode hi)

end steps

end ipmb.field_dependence

namespace ipmb.route_vm
open ipmb.field_dependence

/-- Frames that agree on the fields that a program's instructions load are evaluated
alike, whatever else is in them. -/
theorem ipmb_vm_evaluate_loaded_fields (bc : ipmb_rule_bytecode_t) (frame frame' : ipmb_frame_t)
    (hagree : ∀ id, Loads bc.code id → load_field frame id = load_field frame' id) :
    ipmb_vm_evaluate bc frame = ipmb_vm_evaluate bc frame' := by
  rw [ipmb_vm_evaluate_eq, ipmb_vm_evaluate_eq, meaning, meaning, run_eq_of_loads _ hagree]

/-- The code of a rule about the source does not see the time to live, although its
immediate has the bytes of a load of it. -/
theorem source_rule_ignores_ttl :
    ipmb_vm_evaluate ⟨cmp_program 3 .IPMB_RULE_CMP_EQ 1539⟩ empty_frame =
      ipmb_vm_evaluate ⟨cmp_program 3 .IPMB_RULE_CMP_EQ 1539⟩ { empty_frame with ttl := 9 } := by
  refine ipmb_vm_evaluate_loaded_fields _ _ _ fun id hloads => ?_
  by_cases hid : id = 6
  · subst hid
    exact absurd hloads (by decide)
  · unfold load_field
    split <;> first | rfl | exact absurd rfl hid

end ipmb.route_vm
