import Ipmb.Routing.MachineRuns
import Ipmb.Routing.Simulation

open ipmb.frame_reader ipmb.rule_compiler ipmb.route_vm

namespace ipmb.stack_machine

/-- The depths that are full on a stack without a limit. -/
def never_full (_ : Nat) : Bool := false

/-- What a program means on the machine without a stack limit. -/
def unbounded_meaning (code : List UInt8) (f : ipmb_frame_t) : Option Bool :=
  run never_full f code.length code []

/-- The states that machine comes through, from the start of the program. -/
def unbounded_states (code : List UInt8) (f : ipmb_frame_t) : List (List UInt8 × List Int32) :=
  transition.visited (machine never_full f) code.length (code, [])

/-- The machine without a limit never holds more than 64 values. -/
def StaysWithin (code : List UInt8) (f : ipmb_frame_t) : Prop :=
  ∀ s ∈ unbounded_states code f, s.2.length ≤ 64

/-- It comes to a range test with all 64 slots in use. -/
def RangeOnFull (code : List UInt8) (f : ipmb_frame_t) : Prop :=
  ∃ s ∈ unbounded_states code f, ∃ rest, decode s.1 = some (.range, rest) ∧ s.2.length = 64

section step
variable {f : ipmb_frame_t} {code : List UInt8} {st : List Int32}

/-- The limit changes a step only where the stack is full and the instruction
wants room. -/
theorem step_full64_cases (f : ipmb_frame_t) (code : List UInt8) (st : List Int32) :
    step full64 f code st = step never_full f code st ∨
      step full64 f code st = none ∧ 64 ≤ st.length ∧
        ∃ i rest, decode code = some (i, rest) ∧ i.needsRoom = true := by
  cases hdecode : decode code with
  | none =>
    left
    rw [step, step, hdecode]
  | some r =>
    obtain ⟨i, rest⟩ := r
    by_cases hstop : i = .stop
    · left
      subst hstop
      rw [step_stop hdecode, step_stop hdecode]
    · have hunbounded : step never_full f code st = (exec f i st).map fun st => .inl (rest, st) := by
        rw [step_exec hdecode hstop, never_full, Bool.and_false]
        rfl
      rw [step_exec hdecode hstop, hunbounded]
      split
      · rename_i hfull
        obtain ⟨hroom, hdepth⟩ := Bool.and_eq_true_iff.mp hfull
        exact .inr ⟨rfl, of_decide_eq_true hdepth, i, rest, rfl, hroom⟩
      · exact .inl rfl

/-- Without the limit an instruction that wants room and is not a range test
leaves one value more. -/
theorem step_never_full_grows {i : Instr} {rest : List UInt8} (hdecode : decode code = some (i, rest))
    (hroom : i.needsRoom = true) (hrange : i ≠ .range) :
    ∃ v, step never_full f code st = some (.inl (rest, v :: st)) := by
  have hstop : i ≠ .stop := by
    rintro rfl
    cases hroom
  rw [step_exec hdecode hstop, never_full, Bool.and_false]
  cases i with
  | pushInt v => exact ⟨v, rfl⟩
  | loadField id => exact ⟨load_field f id, rfl⟩
  | range => exact absurd rfl hrange
  | _ => cases hroom

/-- With the limit a range test is refused on a full stack. -/
theorem step_full64_range {rest : List UInt8} (hdecode : decode code = some (.range, rest))
    (hfull : st.length = 64) : step full64 f code st = none := by
  rw [step_exec hdecode (by decide), hfull]
  rfl

end step

section limit
variable {code : List UInt8} {f : ipmb_frame_t}

/-- A range test on a full stack ends the run with the limit in a failure. -/
theorem meaning_of_range_on_full (h : RangeOnFull code f) : meaning code f = none := by
  obtain ⟨s, hs, rest, hdecode, hfull⟩ := h
  unfold meaning
  rw [run_eq_machine_run]
  have hstep : ∀ t, machine full64 f t = machine never_full f t ∨ machine full64 f t = none := by
    intro t
    obtain hsame | ⟨hnone, -, -⟩ := step_full64_cases f t.1 t.2
    · exact .inl hsame
    · exact .inr hnone
  exact transition.run_eq_none_of_stuck hstep hs (step_full64_range hdecode hfull)

/-- Where the machine without the limit stays within it, only a range test
feels it. -/
theorem meaning_eq_unbounded (hwithin : StaysWithin code f) (hrange : ¬RangeOnFull code f) :
    meaning code f = unbounded_meaning code f := by
  unfold meaning unbounded_meaning
  rw [run_eq_machine_run, run_eq_machine_run]
  refine transition.run_congr fun t ht => ?_
  obtain hsame | ⟨-, hdepth, i, rest, hdecode, hroom⟩ := step_full64_cases f t.1 t.2
  · exact hsame
  · have hfull : t.2.length = 64 := Nat.le_antisymm (hwithin t ht) hdepth
    by_cases hi : i = .range
    · subst hi
      exact absurd ⟨t, ht, rest, hdecode, hfull⟩ hrange
    · -- the next state would hold 65 values
      obtain ⟨v, hnext⟩ : ∃ v, machine never_full f t = some (.inl (rest, v :: t.2)) :=
        step_never_full_grows hdecode hroom hi
      have hfuel : (code, ([] : List Int32)).1.length ≤ code.length := Nat.le_refl _
      have hmem := machine_lowers.mem_visited_next hfuel ht hnext
      have hle := hwithin _ hmem
      rw [List.length_cons, hfull] at hle
      exact absurd hle (by decide)

theorem report_eq_report_none {v : Option Bool} (h : report none = report v) : v = none := by
  cases v with
  | none => rfl
  | some b => cases h

end limit

end ipmb.stack_machine

namespace ipmb.route_vm
open ipmb.stack_machine

/-- For a program that needs no more than 64 slots the limit makes no
difference, unless it makes a range test with all of them in use. The test
frees a slot, but is refused all the same. -/
theorem ipmb_vm_evaluate_stack_limit_iff (bc : ipmb_rule_bytecode_t) (frame : ipmb_frame_t) :
    (StaysWithin bc.code frame →
        ipmb_vm_evaluate bc frame = .ok (report (unbounded_meaning bc.code frame))) ↔
      (StaysWithin bc.code frame → RangeOnFull bc.code frame →
        unbounded_meaning bc.code frame = none) := by
  rw [ipmb_vm_evaluate_eq]
  constructor
  · intro hagree hwithin hrange
    have hreport := hagree hwithin
    rw [meaning_of_range_on_full hrange] at hreport
    exact report_eq_report_none (Except.ok.inj hreport)
  · intro hcond hwithin
    by_cases hrange : RangeOnFull bc.code frame
    · rw [meaning_of_range_on_full hrange, hcond hwithin hrange]
    · rw [meaning_eq_unbounded hwithin hrange]

/-- The number 0 pushed 64 times, a range test, the end. -/
def range_on_full_program : ipmb_rule_bytecode_t where
  code := (List.replicate 64 [IPMB_OP_PUSH_INT, 0, 0, 0, 0]).flatten ++ [IPMB_OP_RANGE, IPMB_OP_END]

/-- The program needs 64 slots at most and matches without a limit, but
evaluation fails. -/
theorem ipmb_vm_evaluate_range_on_full :
    StaysWithin range_on_full_program.code empty_frame ∧
      ipmb_vm_evaluate range_on_full_program empty_frame = .ok (.IPMB_ERR_EVAL, false) ∧
      report (unbounded_meaning range_on_full_program.code empty_frame) = (.IPMB_OK, true) := by
  refine ⟨?_, ?_, ?_⟩
  · unfold StaysWithin
    decide +kernel
  · have hlimit : meaning range_on_full_program.code empty_frame = none := by decide +kernel
    rw [ipmb_vm_evaluate_eq, hlimit]
    rfl
  · have hfree : unbounded_meaning range_on_full_program.code empty_frame = some true := by
      decide +kernel
    rw [hfree]
    rfl

end ipmb.route_vm
