import Ipmb.Routing.MachineRuns
import Ipmb.Routing.Simulation

open ipmb.frame_reader ipmb.rule_compiler

namespace ipmb.stack_machine

/-- The bytes of the instruction at the start of the code, as its opcode and
its length byte say. -/
def instruction_size : List UInt8 → Nat
  | [] => 1
  | op :: rest =>
    if op = IPMB_OP_PUSH_INT then 5
    else if op = IPMB_OP_LOAD_FIELD then 2
    else if op = IPMB_OP_FORWARD ∨ op = IPMB_OP_TAG then 2 + (rest.headD 0).toNat
    else 1

/-- The positions between instructions, decoded one after the other from the
start of the code. -/
inductive Boundary : List UInt8 → Nat → Prop
  | start (code : List UInt8) : Boundary code 0
  | next {code : List UInt8} {i : Nat} (hsize : instruction_size code ≤ code.length)
    (hrest : Boundary (code.drop (instruction_size code)) i) : Boundary code (instruction_size code + i)

/-- An action instruction with its whole operand. -/
structure Action where
  op : UInt8
  operand : List UInt8
  isAction : op = IPMB_OP_FORWARD ∨ op = IPMB_OP_TAG
  fits : operand.length < 256

def Action.code (a : Action) : List UInt8 :=
  a.op :: UInt8.ofNat a.operand.length :: a.operand

/-- The program with an action instruction put in at a position. -/
def insert_action (bc : ipmb_rule_bytecode_t) (i : Nat) (a : Action) : ipmb_rule_bytecode_t :=
  { bc with code := bc.code.take i ++ a.code ++ bc.code.drop i }

section opcodes
variable {op : UInt8} (rest : List UInt8)

theorem instruction_size_of_action (hop : op = IPMB_OP_FORWARD ∨ op = IPMB_OP_TAG) (n : UInt8) :
    instruction_size (op :: n :: rest) = 2 + n.toNat := by
  obtain rfl | rfl := hop <;> rfl

theorem decode_action (hop : op = IPMB_OP_FORWARD ∨ op = IPMB_OP_TAG) (n : UInt8) :
    decode (op :: n :: rest) = some (.skip, rest.drop n.toNat) := by
  obtain rfl | rfl := hop <;> rfl

theorem instruction_size_of_opcode (hop : ¬HasOperand op) : instruction_size (op :: rest) = 1 := by
  simp only [HasOperand, not_or] at hop
  obtain ⟨hpush, hload, hforward, htag⟩ := hop
  simp only [instruction_size, hpush, hload, hforward, htag, if_false, or_self]

end opcodes

section instruction
variable {full : Nat → Bool} {f : ipmb_frame_t} {code : List UInt8}

/-- An instruction that is there as a whole is decoded the same whatever
follows it. -/
theorem decode_instruction (h : instruction_size code ≤ code.length) :
    ∃ i : Option Instr, ∀ t, decode (code.take (instruction_size code) ++ t) = i.map fun i => (i, t) := by
  cases code with
  | nil => exact absurd h (by decide)
  | cons op rest =>
    by_cases hop : HasOperand op
    · obtain rfl | rfl | haction := hop
      · have hsize : 5 ≤ rest.length + 1 := h
        match rest, hsize with
        | a :: b :: c :: d :: rest, _ =>
          exact ⟨some (.pushInt (endian.ipmb_load_le32 [a, b, c, d]).toInt32), fun t => rfl⟩
      · cases rest with
        | nil => exact absurd h (by decide)
        | cons id rest => exact ⟨some (.loadField id), fun t => rfl⟩
      · cases rest with
        | nil =>
          obtain rfl | rfl := haction <;> exact absurd h (by decide)
        | cons n rest =>
          rw [instruction_size_of_action rest haction, List.length_cons, List.length_cons] at h
          refine ⟨some .skip, fun t => ?_⟩
          have htake : (op :: n :: rest).take (2 + n.toNat) = op :: n :: rest.take n.toNat := by
            rw [Nat.add_comm, List.take_succ_cons, List.take_succ_cons]
          rw [instruction_size_of_action rest haction, htake, List.cons_append, List.cons_append,
            decode_action _ haction, List.drop_left' (List.length_take_of_le (by omega))]
          rfl
    · obtain ⟨i, hdecode⟩ := decode_opcode hop
      rw [instruction_size_of_opcode rest hop]
      exact ⟨i, hdecode⟩

/-- What its step does is the same whatever follows it. -/
theorem step_instruction (full : Nat → Bool) (f : ipmb_frame_t)
    (h : instruction_size code ≤ code.length) (st : List Int32) :
    ∃ r : Option (List Int32 ⊕ Bool), ∀ t,
      step full f (code.take (instruction_size code) ++ t) st = r.map (Sum.map (fun st => (t, st)) id) := by
  obtain ⟨i, hdecode⟩ := decode_instruction h
  cases i with
  | none =>
    refine ⟨none, fun t => ?_⟩
    rw [step, hdecode]
    rfl
  | some i =>
    by_cases hi : i = .stop
    · subst hi
      refine ⟨st.head?.map fun top => .inr (decide (top ≠ 0)), fun t => ?_⟩
      rw [step_stop (hdecode t), Option.map_map]
      rfl
    · refine ⟨if i.needsRoom && full st.length then none else (exec f i st).map .inl, fun t => ?_⟩
      rw [step_exec (hdecode t) hi]
      split
      · rfl
      · rw [Option.map_map]
        rfl

theorem instruction_size_pos (code : List UInt8) : 0 < instruction_size code := by
  cases code with
  | nil => exact Nat.one_pos
  | cons op rest =>
    rw [instruction_size]
    split_ifs <;> omega

/-- An action instruction is skipped. -/
theorem step_action (a : Action) (t : List UInt8) (st : List Int32) :
    step full f (a.code ++ t) st = some (.inl (t, st)) := by
  have hlen : (UInt8.ofNat a.operand.length).toNat = a.operand.length :=
    UInt8.toNat_ofNat_of_lt' a.fits
  have hdecode : decode (a.code ++ t) = some (.skip, t) := by
    rw [Action.code, List.cons_append, List.cons_append, decode_action _ a.isAction, hlen,
      List.drop_left]
  rw [step_exec hdecode (by decide)]
  rfl

/-- The two programs go in step up to the action, and on from there with the
same code. -/
theorem run_insert_action (a : Action) {i : Nat} (hi : Boundary code i) {m n : Nat} (st : List Int32)
    (hm : code.length ≤ m) (hn : (code.take i ++ a.code ++ code.drop i).length ≤ n) :
    run full f n (code.take i ++ a.code ++ code.drop i) st = run full f m code st := by
  induction hi generalizing m n st with
  | start code =>
    rw [List.take_zero, List.drop_zero, List.nil_append] at hn ⊢
    cases n with
    | zero => simp [Action.code] at hn
    | succ n =>
      rw [run, step_action]
      refine run_eq_of_length_le ?_ hm
      simp only [List.length_append, Action.code, List.length_cons] at hn
      omega
  | @next code i hsize hrest ih =>
    have hpos := instruction_size_pos code
    obtain ⟨r, hstep⟩ := step_instruction full f hsize st
    have hstep' := hstep (code.drop (instruction_size code))
    rw [List.take_append_drop] at hstep'
    have hsplit : code.take (instruction_size code + i) ++ a.code ++ code.drop (instruction_size code + i) =
        code.take (instruction_size code) ++ ((code.drop (instruction_size code)).take i ++ a.code ++
          (code.drop (instruction_size code)).drop i) := by
      rw [List.take_add, List.drop_drop]
      simp only [List.append_assoc]
    rw [hsplit] at hn ⊢
    rw [List.length_append, List.length_take_of_le hsize] at hn
    obtain ⟨m, rfl⟩ := Nat.exists_eq_add_one.mpr (show 0 < m by omega)
    obtain ⟨n, rfl⟩ := Nat.exists_eq_add_one.mpr (show 0 < n by omega)
    rw [run, run, hstep, hstep']
    cases r with
    | none => rfl
    | some r =>
      cases r with
      | inr b => rfl
      | inl st =>
        refine ih st ?_ (by omega)
        rw [List.length_drop]
        omega

end instruction

end ipmb.stack_machine

namespace ipmb.route_vm
open ipmb.stack_machine

/-- Actions do not take part in matching: put in between any two instructions,
they change neither the status nor the flag. -/
theorem ipmb_vm_evaluate_insert_action (bc : ipmb_rule_bytecode_t) (frame : ipmb_frame_t) {i : Nat}
    (hi : Boundary bc.code i) (a : Action) :
    ∃ rc matched, ipmb_vm_evaluate (insert_action bc i a) frame = .ok (rc, matched) ∧
      ipmb_vm_evaluate bc frame = .ok (rc, matched) := by
  have hmeaning : meaning (insert_action bc i a).code frame = meaning bc.code frame :=
    run_insert_action a hi [] (Nat.le_refl _) (Nat.le_refl _)
  rw [ipmb_vm_evaluate_eq, ipmb_vm_evaluate_eq, hmeaning]
  exact ⟨_, _, rfl, rfl⟩

/-- The rule `type == 5` with a tag put in behind its first instruction; the
tag is the byte of an end. -/
theorem ipmb_vm_evaluate_insert_tag :
    ∃ rc matched,
      ipmb_vm_evaluate
          (insert_action { code := [3, 1, 1, 5, 0, 0, 0, 4, 13] } 2
            { op := IPMB_OP_TAG, operand := [13], isAction := .inr rfl, fits := by decide })
          { frame_type := 5, frame_flags := 0, source_addr := 0, dest_addr := 0, priority := 0, ttl := 0,
            payload := [], payload_len := 0, crc := 0 } = .ok (rc, matched) ∧
        ipmb_vm_evaluate { code := [3, 1, 1, 5, 0, 0, 0, 4, 13] }
          { frame_type := 5, frame_flags := 0, source_addr := 0, dest_addr := 0, priority := 0, ttl := 0,
            payload := [], payload_len := 0, crc := 0 } = .ok (rc, matched) :=
  have hi : Boundary [3, 1, 1, 5, 0, 0, 0, 4, 13] 2 := .next (i := 0) (by decide) (.start _)
  ipmb_vm_evaluate_insert_action _ _ hi _

end ipmb.route_vm
