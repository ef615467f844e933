import Ipmb.Protocol.FrameReader
import Ipmb.Routing.RuleCompiler

open ipmb.endian ipmb.frame_reader ipmb.rule_compiler

namespace ipmb.route_vm

structure ipmb_vm_value_t where
  i : Int32
  is_bool : Bool
  deriving DecidableEq

/-- The conversions to `int32_t`: 16-bit fields keep their value, 32-bit
fields are reinterpreted, the payload length is truncated to 32 bits first. -/
def load_field (f : ipmb_frame_t) (id : UInt8) : Int32 :=
  match id with
  | 1 => f.frame_type.toUInt32.toInt32
  | 2 => f.frame_flags.toUInt32.toInt32
  | 3 => f.source_addr.toInt32
  | 4 => f.dest_addr.toInt32
  | 5 => f.priority.toUInt32.toInt32
  | 6 => f.ttl.toUInt32.toInt32
  | 7 => (UInt32.ofNat f.payload_len).toInt32
  | _ => 0

/-- The local variables of the evaluation loop. -/
structure vm_state where
  stack : Vector ipmb_vm_value_t 64
  sp : Nat
  pc : Nat

/-- The loop either goes round again or returns a status and the match flag. -/
abbrev vm_result := vm_state ⊕ (ipmb_status_t × Bool)

/-- `bc->code[i]`, defined inside the code only. -/
def read_code (bc : ipmb_rule_bytecode_t) (i : Nat) : Except Fault UInt8 :=
  match bc.code[i]? with
  | some b => .ok b
  | none => .error .readOutOfBounds

/-- The four bytes of an immediate. -/
def read_code_le32 (bc : ipmb_rule_bytecode_t) (i : Nat) : Except Fault UInt32 :=
  if i + 4 ≤ bc.len then .ok (ipmb_load_le32 (bc.code.drop i)) else .error .readOutOfBounds

/-- `stack[sp] = v; sp++`. -/
def push (s : vm_state) (v : ipmb_vm_value_t) : Except Fault vm_state :=
  if h : s.sp < 64 then .ok { s with stack := s.stack.set s.sp v, sp := s.sp + 1 }
  else .error .writeOutOfBounds

/-- `stack[--sp]`; below zero the index wraps far outside the array. -/
def pop (s : vm_state) : Except Fault (ipmb_vm_value_t × vm_state) :=
  if h : 0 < s.sp ∧ s.sp ≤ 64 then .ok (s.stack[s.sp - 1], { s with sp := s.sp - 1 })
  else .error .readOutOfBounds

/-- `return IPMB_ERR_EVAL`, before the flag was set. -/
def err_eval : vm_result := .inr (.IPMB_ERR_EVAL, false)

section round

variable {m : Type → Type} [Monad m] (code : Nat → m UInt8) (code_le32 : Nat → m UInt32)
  (push : vm_state → ipmb_vm_value_t → m vm_state) (pop : vm_state → m (ipmb_vm_value_t × vm_state))

/-- One round of the loop, entered with `pc < bc->len`. How it reads the code and
reaches the stack is left open. -/
def vm_step_with (bc : ipmb_rule_bytecode_t) (frame : ipmb_frame_t) (s : vm_state) : m vm_result := do
  let op ← code s.pc
  let s := { s with pc := s.pc + 1 }
  if op = IPMB_OP_PUSH_INT then
    if s.pc + 4 > bc.len ∨ s.sp ≥ 64 then pure err_eval
    else
      let v ← code_le32 s.pc
      let s ← push s { i := v.toInt32, is_bool := false }
      pure (.inl { s with pc := s.pc + 4 })
  else if op = IPMB_OP_LOAD_FIELD then
    if s.pc ≥ bc.len ∨ s.sp ≥ 64 then pure err_eval
    else
      let id ← code s.pc
      let s := { s with pc := s.pc + 1 }
      let s ← push s { i := load_field frame id, is_bool := false }
      pure (.inl s)
  else if op = IPMB_OP_CMP_EQ ∨ op = IPMB_OP_CMP_GT ∨ op = IPMB_OP_CMP_LT then
    if s.sp < 2 then pure err_eval
    else
      let (rhs, s) ← pop s
      let (lhs, s) ← pop s
      let ok := if op = IPMB_OP_CMP_EQ then decide (lhs.i = rhs.i)
        else if op = IPMB_OP_CMP_GT then decide (lhs.i > rhs.i) else decide (lhs.i < rhs.i)
      let s ← push s { i := if ok then 1 else 0, is_bool := true }
      pure (.inl s)
  else if op = IPMB_OP_RANGE then
    if s.sp < 3 ∨ s.sp ≥ 64 then pure err_eval
    else
      let (high, s) ← pop s
      let (low, s) ← pop s
      let (value, s) ← pop s
      let s ← push s { i := if value.i ≥ low.i then 1 else 0, is_bool := true }
      let s ← push s { i := if value.i ≤ high.i then 1 else 0, is_bool := true }
      pure (.inl s)
  else if op = IPMB_OP_AND ∨ op = IPMB_OP_OR then
    if s.sp < 2 then pure err_eval
    else
      let (top, s) ← pop s
      let b := decide (top.i ≠ 0)
      let (top, s) ← pop s
      let a := decide (top.i ≠ 0)
      let r := if op = IPMB_OP_AND then a && b else a || b
      let s ← push s { i := if r then 1 else 0, is_bool := true }
      pure (.inl s)
  else if op = IPMB_OP_NOT then
    if s.sp < 1 then pure err_eval
    else
      -- the C code updates the top slot in place
      let (top, s) ← pop s
      let s ← push s { i := if top.i = 0 then 1 else 0, is_bool := true }
      pure (.inl s)
  else if op = IPMB_OP_FORWARD ∨ op = IPMB_OP_TAG then
    if s.pc ≥ bc.len then pure err_eval
    else
      let n ← code s.pc
      pure (.inl { s with pc := s.pc + (n.toNat + 1) })
  else if op = IPMB_OP_END then
    if s.sp = 0 then pure err_eval
    else
      let (top, _) ← pop s
      pure (.inr (.IPMB_OK, decide (top.i ≠ 0)))
  else pure err_eval

/-- The loop with a bound on its rounds, whatever a round is. -/
def vm_loop_with [MonadExceptOf Fault m] (step : vm_state → m vm_result) (bc : ipmb_rule_bytecode_t) :
    Nat → vm_state → m (ipmb_status_t × Bool)
  | fuel, s =>
    if s.pc < bc.len then
      match fuel with
      | 0 => throw .outOfFuel
      | fuel + 1 => do
        match ← step s with
        | .inl s => vm_loop_with step bc fuel s
        | .inr r => pure r
    else pure (.IPMB_ERR_EVAL, false)

end round

def vm_step (bc : ipmb_rule_bytecode_t) (frame : ipmb_frame_t) : vm_state → Except Fault vm_result :=
  vm_step_with (read_code bc) (read_code_le32 bc) push pop bc frame

def vm_loop (bc : ipmb_rule_bytecode_t) (frame : ipmb_frame_t) :
    Nat → vm_state → Except Fault (ipmb_status_t × Bool) :=
  vm_loop_with (vm_step bc frame) bc

def vm_init : vm_state :=
  { stack := Vector.replicate 64 { i := 0, is_bool := false }, sp := 0, pc := 0 }

/-- Status and `*matched`. A round for each byte of the code is enough, since
every round moves `pc` forward. -/
def ipmb_vm_evaluate (bc : ipmb_rule_bytecode_t) (frame : ipmb_frame_t) :
    Except Fault (ipmb_status_t × Bool) :=
  vm_loop bc frame bc.len vm_init

/-- A frame whose fields are all zero. -/
def empty_frame : ipmb_frame_t where
  frame_type := 0
  frame_flags := 0
  source_addr := 0
  dest_addr := 0
  priority := 0
  ttl := 0
  payload := []
  payload_len := 0
  crc := 0

end ipmb.route_vm
