import Ipmb.Routing.VmAccess

open fallible logged
open ipmb.endian ipmb.frame_reader ipmb.rule_compiler

namespace ipmb.route_vm

/-- What was stored to a slot last, if anything was. -/
def slot_value : List Access → Nat → Option ipmb_vm_value_t
  | [], _ => none
  | .write i v :: before, j => if i = j then some v else slot_value before j
  | _ :: before, j => slot_value before j

/-- An access within the bounds of the code or of the stack, a read of a slot
being of the value that was pushed there. -/
def Allowed (bc : ipmb_rule_bytecode_t) (before : List Access) : Access → Prop
  | .code i => i < bc.len
  | .write i _ => i < 64
  | .read i v => i < 64 ∧ slot_value before i = some v

/-- All accesses are allowed after those before them. -/
def Safe (bc : ipmb_rule_bytecode_t) : List Access → Prop
  | [] => True
  | a :: before => Allowed bc before a ∧ Safe bc before

/-- Between the operations the slots below the stack pointer hold what was
pushed last. -/
structure Kept (bc : ipmb_rule_bytecode_t) (s : vm_state) (log : List Access) : Prop where
  sp_le : s.sp ≤ 64
  slots : ∀ i < s.sp, slot_value log i = s.stack[i]?
  safe : Safe bc log

/-- What a round leaves: a state further on in the code, or a result that does
not report a match with a failure. -/
def Leaves (bc : ipmb_rule_bytecode_t) (pc : Nat) : vm_result → List Access → Prop
  | .inl s, log => Kept bc s log ∧ pc < s.pc
  | .inr (rc, matched), log => Safe bc log ∧ (rc ≠ .IPMB_OK → matched = false)

section rules

variable {A : Type} {bc : ipmb_rule_bytecode_t} {s : vm_state} {log : List Access} {Q : A → List Access → Prop}

theorem Kept.init : Kept bc vm_init [] :=
  ⟨Nat.zero_le _, fun _ h => absurd h (Nat.not_lt_zero _), trivial⟩

/-- The program counter does not matter to the stack. -/
theorem Kept.jump (h : Kept bc s log) (pc : Nat) : Kept bc { s with pc } log := ⟨h.sp_le, h.slots, h.safe⟩

theorem Kept.code (h : Kept bc s log) {i : Nat} (hi : i < bc.len) : Kept bc s (.code i :: log) :=
  ⟨h.sp_le, h.slots, hi, h.safe⟩

theorem code_rule {i : Nat} {k : UInt8 → Vm A} (h : Kept bc s log) (hi : i < bc.len)
    (hk : ∀ b log', Kept bc s log' → Ensures (k b) log' Q) : Ensures (code_logged bc i >>= k) log Q := by
  have hread : read_code bc i = .ok bc.code[i] := by
    rw [read_code, List.getElem?_eq_getElem hi]
  refine Ensures.bind (P := fun _ log' => Kept bc s log') (.noting hread ?_) hk
  exact h.code hi

theorem code_le32_rule {i : Nat} {k : UInt32 → Vm A} (h : Kept bc s log) (hi : i + 4 ≤ bc.len)
    (hk : ∀ v log', Kept bc s log' → Ensures (k v) log' Q) : Ensures (code_le32_logged bc i >>= k) log Q := by
  have hread : read_code_le32 bc i = .ok (ipmb_load_le32 (bc.code.drop i)) := by
    rw [read_code_le32, if_pos hi]
  refine Ensures.bind (P := fun _ log' => Kept bc s log') (.noting hread ?_) hk
  exact (((h.code (by omega)).code (by omega)).code (by omega)).code (by omega)

theorem push_rule {v : ipmb_vm_value_t} {k : vm_state → Vm A} (h : Kept bc s log) (hroom : s.sp < 64)
    (hk : ∀ s' log', Kept bc s' log' → s'.sp = s.sp + 1 → s'.pc = s.pc → Ensures (k s') log' Q) :
    Ensures (push_logged s v >>= k) log Q := by
  have hpush : push s v = .ok { s with stack := s.stack.set s.sp v, sp := s.sp + 1 } := by
    rw [push, dif_pos hroom]
  refine Ensures.bind (P := fun s' log' => Kept bc s' log' ∧ s'.sp = s.sp + 1 ∧ s'.pc = s.pc)
    (.noting hpush ⟨⟨hroom, ?_, hroom, h.safe⟩, rfl, rfl⟩) fun s' log' hs' => hk s' log' hs'.1 hs'.2.1 hs'.2.2
  intro i hi
  simp only [List.singleton_append, slot_value]
  by_cases htop : s.sp = i
  · rw [if_pos htop, ← htop]
    simp
  · have hlow : i < s.sp := by
      simp only at hi
      omega
    rw [if_neg htop, h.slots i hlow, Vector.getElem?_set_ne _ htop]

theorem pop_rule {k : ipmb_vm_value_t × vm_state → Vm A} (h : Kept bc s log) (hpos : 0 < s.sp)
    (hk : ∀ v s' log', Kept bc s' log' → s'.sp = s.sp - 1 → s'.pc = s.pc → Ensures (k (v, s')) log' Q) :
    Ensures (pop_logged s >>= k) log Q := by
  have hle := h.sp_le
  have hpop : pop s = .ok (s.stack[s.sp - 1], { s with sp := s.sp - 1 }) := by
    rw [pop, dif_pos ⟨hpos, hle⟩]
  have hread : slot_value log (s.sp - 1) = some s.stack[s.sp - 1] := by
    rw [h.slots _ (by omega), Vector.getElem?_eq_getElem]
  refine Ensures.bind (P := fun r log' => Kept bc r.2 log' ∧ r.2.sp = s.sp - 1 ∧ r.2.pc = s.pc)
    (.noting hpop ⟨⟨?_, ?_, ⟨by omega, hread⟩, h.safe⟩, rfl, rfl⟩)
    fun r log' hr => hk r.1 r.2 log' hr.1 hr.2.1 hr.2.2
  · simp only
    omega
  · intro i hi
    simp only at hi
    exact h.slots i (by omega)

theorem stop_rule {pc : Nat} (h : Kept bc s log) : Ensures (pure err_eval : Vm vm_result) log (Leaves bc pc) :=
  .pure ⟨h.safe, fun _ => rfl⟩

theorem next_rule {pc : Nat} (h : Kept bc s log) (hpc : pc < s.pc) :
    Ensures (pure (.inl s) : Vm vm_result) log (Leaves bc pc) := .pure ⟨h, hpc⟩

end rules

/-- A round keeps the accesses safe, whatever the instruction. -/
theorem vm_step_logged_safe {bc : ipmb_rule_bytecode_t} (frame : ipmb_frame_t) {s : vm_state} {log : List Access}
    (h : Kept bc s log) (hpc : s.pc < bc.len) :
    Ensures (vm_step_logged bc frame s) log (Leaves bc s.pc) := by
  refine code_rule h hpc fun op log h => ?_
  have hfirst : ({ s with pc := s.pc + 1 } : vm_state).pc = s.pc + 1 := rfl
  replace h := h.jump (s.pc + 1)
  generalize ({ s with pc := s.pc + 1 } : vm_state) = s₀ at h hfirst ⊢
  dsimp only
  have hle := h.sp_le
  refine .ite (fun _ => ?_) fun _ => ?_
  · -- PUSH_INT
    refine .ite (fun _ => stop_rule h) fun hroom => ?_
    refine code_le32_rule h (by omega) fun v log h => ?_
    refine push_rule (s := s₀) h (by omega) fun s' log h hsp hs' => ?_
    exact next_rule (h.jump _) (by dsimp only; omega)
  refine .ite (fun _ => ?_) fun _ => ?_
  · -- LOAD_FIELD
    refine .ite (fun _ => stop_rule h) fun hroom => ?_
    refine code_rule h (by omega) fun id log h => ?_
    refine push_rule (h.jump _) (by dsimp only; omega) fun s' log h hsp hs' => ?_
    exact next_rule h (by dsimp only at hs'; omega)
  refine .ite (fun _ => ?_) fun _ => ?_
  · -- CMP_EQ, CMP_GT, CMP_LT
    refine .ite (fun _ => stop_rule h) fun hdepth => ?_
    refine pop_rule (s := s₀) h (by omega) fun rhs s₁ log h hsp₁ hs₁ => ?_
    refine pop_rule (s := s₁) h (by omega) fun lhs s₂ log h hsp₂ hs₂ => ?_
    refine push_rule (s := s₂) h (by omega) fun s' log h hsp hs' => ?_
    exact next_rule h (by omega)
  refine .ite (fun _ => ?_) fun _ => ?_
  · -- RANGE
    refine .ite (fun _ => stop_rule h) fun hdepth => ?_
    refine pop_rule (s := s₀) h (by omega) fun high s₁ log h hsp₁ hs₁ => ?_
    refine pop_rule (s := s₁) h (by omega) fun low s₂ log h hsp₂ hs₂ => ?_
    refine pop_rule (s := s₂) h (by omega) fun value s₃ log h hsp₃ hs₃ => ?_
    refine push_rule (s := s₃) h (by omega) fun s₄ log h hsp₄ hs₄ => ?_
    refine push_rule (s := s₄) h (by omega) fun s' log h hsp hs' => ?_
    exact next_rule h (by omega)
  refine .ite (fun _ => ?_) fun _ => ?_
  · -- AND, OR
    refine .ite (fun _ => stop_rule h) fun hdepth => ?_
    refine pop_rule (s := s₀) h (by omega) fun b s₁ log h hsp₁ hs₁ => ?_
    refine pop_rule (s := s₁) h (by omega) fun a s₂ log h hsp₂ hs₂ => ?_
    refine push_rule (s := s₂) h (by omega) fun s' log h hsp hs' => ?_
    exact next_rule h (by omega)
  refine .ite (fun _ => ?_) fun _ => ?_
  · -- NOT
    refine .ite (fun _ => stop_rule h) fun hdepth => ?_
    refine pop_rule (s := s₀) h (by omega) fun top s₁ log h hsp₁ hs₁ => ?_
    refine push_rule (s := s₁) h (by omega) fun s' log h hsp hs' => ?_
    exact next_rule h (by omega)
  refine .ite (fun _ => ?_) fun _ => ?_
  · -- FORWARD, TAG
    refine .ite (fun _ => stop_rule h) fun hroom => ?_
    refine code_rule h (by omega) fun n log h => ?_
    exact next_rule (h.jump _) (by dsimp only; omega)
  refine .ite (fun _ => ?_) fun _ => ?_
  · -- END
    refine .ite (fun _ => stop_rule h) fun hdepth => ?_
    refine pop_rule (s := s₀) h (by omega) fun top s' log h _ _ => ?_
    exact .pure ⟨h.safe, fun hrc => absurd rfl hrc⟩
  exact stop_rule h

/-- Every run of the loop keeps the accesses safe. The program counter moves on
in every round, so that a round for each byte left is enough. -/
theorem vm_loop_logged_safe {bc : ipmb_rule_bytecode_t} (frame : ipmb_frame_t) {fuel : Nat} {s : vm_state}
    {log : List Access} (h : Kept bc s log) (hfuel : bc.len ≤ s.pc + fuel) :
    Ensures (vm_loop_logged bc frame fuel s) log fun r log =>
      Safe bc log ∧ (r.1 ≠ .IPMB_OK → r.2 = false) := by
  induction fuel generalizing s log with
  | zero =>
    rw [vm_loop_logged, vm_loop_with, if_neg (by omega)]
    exact .pure ⟨h.safe, fun _ => rfl⟩
  | succ fuel ih =>
    rw [vm_loop_logged, vm_loop_with]
    split
    · rename_i hpc
      refine Ensures.bind (vm_step_logged_safe frame h hpc) fun r log hr => ?_
      cases r with
      | inl s' => exact ih hr.1 (by have := hr.2; omega)
      | inr r => exact .pure hr
    · exact .pure ⟨h.safe, fun _ => rfl⟩

/-- Evaluation of any bytes at all comes to an end within a round for each
byte. It reads the code below its length, stores to the 64 slots, reads from a
slot what was pushed there, and reports no match with a failure. -/
theorem ipmb_vm_evaluate_safe (bc : ipmb_rule_bytecode_t) (frame : ipmb_frame_t) :
    ∃ rc matched log, (vm_loop_logged bc frame bc.len vm_init).run [] = .ok ((rc, matched), log) ∧
      ipmb_vm_evaluate bc frame = .ok (rc, matched) ∧ Safe bc log ∧ (rc ≠ .IPMB_OK → matched = false) := by
  have hinit : Kept bc vm_init [] := Kept.init
  have hensures := vm_loop_logged_safe frame hinit (Nat.le_add_left bc.len 0)
  obtain ⟨⟨rc, matched⟩, log, hlogged, hrun, hsafe, hmatched⟩ :=
    hensures.erase (vm_loop_with_erases (vm_step_logged_erases bc frame) bc bc.len vm_init)
  exact ⟨rc, matched, log, hlogged, hrun, hsafe, hmatched⟩

end ipmb.route_vm
