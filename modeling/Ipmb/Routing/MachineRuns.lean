import Ipmb.Support.Transition
import Ipmb.Routing.StackMachine

open ipmb.frame_reader ipmb.rule_compiler

namespace ipmb.stack_machine

/-- The abstract machine's steps, its states the code left and the stack. -/
def machine (full : Nat → Bool) (f : ipmb_frame_t) :
    transition.Machine (List UInt8 × List Int32) Bool :=
  fun s => step full f s.1 s.2

section runs
variable {full : Nat → Bool} {f : ipmb_frame_t} {code : List UInt8} {st : List Int32}

theorem run_eq_machine_run (fuel : Nat) :
    run full f fuel code st = transition.run (machine full f) fuel (code, st) := by
  induction fuel generalizing code st with
  | zero => rfl
  | succ fuel ih =>
    have hstep : machine full f (code, st) = step full f code st := rfl
    rw [run, transition.run, hstep]
    cases step full f code st with
    | none => rfl
    | some r =>
      cases r with
      | inl s => exact ih
      | inr b => rfl

/-- Only these opcodes have something behind them. -/
def HasOperand (op : UInt8) : Prop :=
  op = IPMB_OP_PUSH_INT ∨ op = IPMB_OP_LOAD_FIELD ∨ op = IPMB_OP_FORWARD ∨ op = IPMB_OP_TAG

/-- An opcode alone is decoded the same whatever follows it. -/
theorem decode_opcode {op : UInt8} (hop : ¬HasOperand op) :
    ∃ i : Option Instr, ∀ rest, decode (op :: rest) = i.map fun i => (i, rest) := by
  refine ⟨(decode [op]).map Prod.fst, fun rest => ?_⟩
  simp only [HasOperand, not_or] at hop
  obtain ⟨hpush, hload, hforward, htag⟩ := hop
  simp only [decode, hpush, hload, hforward, htag, if_false, or_self, apply_ite (Option.map _),
    Option.map_some, Option.map_none]

/-- An instruction takes at least its opcode away. -/
theorem decode_length_lt {i : Instr} {rest : List UInt8} (h : decode code = some (i, rest)) :
    rest.length < code.length := by
  cases code with
  | nil => cases h
  | cons op code =>
    rw [List.length_cons, Nat.lt_succ_iff]
    by_cases hop : HasOperand op
    · obtain rfl | rfl | rfl | rfl := hop
      · simp only [decode, if_true] at h
        split at h
        · cases h
        · cases h
          exact (List.drop_sublist 4 code).length_le
      · cases code with
        | nil => cases h
        | cons id code =>
          cases h
          exact Nat.le_succ _
      all_goals
        cases code with
        | nil => cases h
        | cons n code =>
          cases h
          exact (List.drop_sublist n.toNat code).length_le.trans (Nat.le_succ _)
    · obtain ⟨i, hdecode⟩ := decode_opcode hop
      rw [hdecode code] at h
      obtain ⟨_, _, heq⟩ := Option.map_eq_some_iff.mp h
      cases heq
      exact le_rfl

theorem step_stop {rest : List UInt8} (h : decode code = some (.stop, rest)) :
    step full f code st = st.head?.map fun top => .inr (decide (top ≠ 0)) := by
  rw [step, h]

theorem step_exec {rest : List UInt8} {i : Instr} (h : decode code = some (i, rest))
    (hi : i ≠ .stop) :
    step full f code st =
      if i.needsRoom && full st.length then none else (exec f i st).map fun st => .inl (rest, st) := by
  rw [step, h]
  cases i with
  | stop => exact absurd rfl hi
  | _ => rfl

/-- What a step that goes on did: it took an instruction that is not an end,
found room for it, and carried it out. -/
theorem step_next_cases {code' : List UInt8} {st' : List Int32}
    (h : step full f code st = some (.inl (code', st'))) :
    ∃ i, decode code = some (i, code') ∧ ¬(i.needsRoom && full st.length) ∧ exec f i st = some st' := by
  rw [step] at h
  split at h
  · cases h
  · cases hhead : st.head? with
    | none =>
      rw [hhead] at h
      cases h
    | some top =>
      rw [hhead] at h
      cases h
  · rename_i i rest _ hdecode
    split at h
    · cases h
    · rename_i hroom
      obtain ⟨st₁, hexec, heq⟩ := Option.map_eq_some_iff.mp h
      cases heq
      exact ⟨i, hdecode, hroom, hexec⟩

theorem machine_next {s : List UInt8 × List Int32} (h : step full f code st = some (.inl s)) :
    machine full f (code, st) = some (.inl s) := h

theorem machine_end {b : Bool} (h : step full f code st = some (.inr b)) :
    machine full f (code, st) = some (.inr b) := h

theorem run_of_next {fuel : Nat} {code' : List UInt8} {st' : List Int32}
    (h : step full f code st = some (.inl (code', st'))) :
    run full f (fuel + 1) code st = run full f fuel code' st' := by
  rw [run, h]

theorem machine_lowers : transition.Lowers (machine full f) fun s => s.1.length where
  stuck s hs := by
    have hnil : s.1 = [] := List.eq_nil_of_length_eq_zero hs
    rw [machine, hnil]
    rfl
  lt s s' h := by
    obtain ⟨i, hdecode, -, -⟩ := step_next_cases h
    exact decode_length_lt hdecode

/-- Any two bounds that cover the code give the same verdict. -/
theorem run_eq_of_length_le {m n : Nat} (hm : code.length ≤ m) (hn : code.length ≤ n) :
    run full f m code st = run full f n code st := by
  rw [run_eq_machine_run, run_eq_machine_run]
  exact machine_lowers.run_eq hm hn

end runs

end ipmb.stack_machine
