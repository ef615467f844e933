import Ipmb.Routing.RouteVm

open ipmb.endian ipmb.frame_reader ipmb.rule_compiler ipmb.route_vm

namespace ipmb.stack_machine

/-- The instructions of the rule language. -/
inductive Instr where
  | pushInt (v : Int32)
  | loadField (id : UInt8)
  | cmpEq
  | cmpGt
  | cmpLt
  | range
  | and
  | or
  | not
  | skip
  | stop
  deriving DecidableEq

/-- The instruction at the start of the code and the code after it. An action
instruction skips over its operand, past the end if it says so. -/
def decode : List UInt8 → Option (Instr × List UInt8)
  | [] => none
  | op :: rest =>
    if op = IPMB_OP_PUSH_INT then
      if rest.length < 4 then none else some (.pushInt (ipmb_load_le32 rest).toInt32, rest.drop 4)
    else if op = IPMB_OP_LOAD_FIELD then
      match rest with
      | [] => none
      | id :: rest => some (.loadField id, rest)
    else if op = IPMB_OP_CMP_EQ then some (.cmpEq, rest)
    else if op = IPMB_OP_CMP_GT then some (.cmpGt, rest)
    else if op = IPMB_OP_CMP_LT then some (.cmpLt, rest)
    else if op = IPMB_OP_RANGE then some (.range, rest)
    else if op = IPMB_OP_AND then some (.and, rest)
    else if op = IPMB_OP_OR then some (.or, rest)
    else if op = IPMB_OP_NOT then some (.not, rest)
    else if op = IPMB_OP_FORWARD ∨ op = IPMB_OP_TAG then
      match rest with
      | [] => none
      | n :: rest => some (.skip, rest.drop n.toNat)
    else if op = IPMB_OP_END then some (.stop, rest)
    else none

def ofBool (b : Bool) : Int32 := if b then 1 else 0

/-- What an instruction does to the stack, the top first; nothing on a stack
that is too short. -/
def exec (f : ipmb_frame_t) : Instr → List Int32 → Option (List Int32)
  | .pushInt v, st => some (v :: st)
  | .loadField id, st => some (load_field f id :: st)
  | .cmpEq, rhs :: lhs :: st => some (ofBool (decide (lhs = rhs)) :: st)
  | .cmpGt, rhs :: lhs :: st => some (ofBool (decide (lhs > rhs)) :: st)
  | .cmpLt, rhs :: lhs :: st => some (ofBool (decide (lhs < rhs)) :: st)
  | .range, high :: low :: value :: st =>
    some (ofBool (decide (value ≤ high)) :: ofBool (decide (value ≥ low)) :: st)
  | .and, b :: a :: st => some (ofBool (decide (a ≠ 0) && decide (b ≠ 0)) :: st)
  | .or, b :: a :: st => some (ofBool (decide (a ≠ 0) || decide (b ≠ 0)) :: st)
  | .not, top :: st => some (ofBool (decide (top = 0)) :: st)
  | .skip, st => some st
  | _, _ => none

@[simp] theorem exec_pushInt (f : ipmb_frame_t) (v : Int32) (st : List Int32) :
    exec f (.pushInt v) st = some (v :: st) := rfl

@[simp] theorem exec_loadField (f : ipmb_frame_t) (id : UInt8) (st : List Int32) :
    exec f (.loadField id) st = some (load_field f id :: st) := rfl

/-- The instructions that are refused on a full stack. -/
def Instr.needsRoom : Instr → Bool
  | .pushInt _ => true
  | .loadField _ => true
  | .range => true
  | _ => false

@[simp] theorem needsRoom_pushInt (v : Int32) : (Instr.pushInt v).needsRoom = true := rfl

@[simp] theorem needsRoom_loadField (id : UInt8) : (Instr.loadField id).needsRoom = true := rfl

/-- One step of the machine whose stack is full at the depths `full` says: it
goes on with the code after the instruction, stops with a verdict, or fails. -/
def step (full : Nat → Bool) (f : ipmb_frame_t) (code : List UInt8) (st : List Int32) :
    Option ((List UInt8 × List Int32) ⊕ Bool) :=
  match decode code with
  | none => none
  | some (.stop, _) => st.head?.map fun top => .inr (decide (top ≠ 0))
  | some (i, rest) =>
    if i.needsRoom && full st.length then none
    else (exec f i st).map fun st => .inl (rest, st)

/-- The verdict of a program, if it reaches one. -/
def run (full : Nat → Bool) (f : ipmb_frame_t) : Nat → List UInt8 → List Int32 → Option Bool
  | 0, _, _ => none
  | fuel + 1, code, st =>
    match step full f code st with
    | none => none
    | some (.inr b) => some b
    | some (.inl (code, st)) => run full f fuel code st

/-- The stack of 64 slots. -/
def full64 (depth : Nat) : Bool := decide (64 ≤ depth)

/-- What a rule program means for a frame on the machine with 64 slots. -/
def meaning (code : List UInt8) (f : ipmb_frame_t) : Option Bool :=
  run full64 f code.length code []

/-- Status and flag as the evaluator reports a verdict. -/
def report : Option Bool → ipmb_status_t × Bool
  | some b => (.IPMB_OK, b)
  | none => (.IPMB_ERR_EVAL, false)

end ipmb.stack_machine
