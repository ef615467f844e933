import Ipmb.Routing.Compiled
import Ipmb.Routing.InsertedAction

open ipmb.endian ipmb.frame_reader ipmb.rule_parser ipmb.rule_compiler ipmb.route_vm ipmb.stack_machine

namespace ipmb.condition

/-- The comparisons of the machine: of the slot below the top with the top. -/
inductive Comparison where
  | eq
  | gt
  | lt

def Comparison.opcode : Comparison → UInt8
  | .eq => IPMB_OP_CMP_EQ
  | .gt => IPMB_OP_CMP_GT
  | .lt => IPMB_OP_CMP_LT

def Comparison.holds : Comparison → Int32 → Int32 → Bool
  | .eq, a, b => decide (a = b)
  | .gt, a, b => decide (a > b)
  | .lt, a, b => decide (a < b)

/-- The conditions that programs can be written for. A number counts as true unless
it is zero, so that any two conditions can be compared and joined. An action may
follow a condition. -/
inductive Condition where
  | const (v : Int32)
  | field (fid : UInt8)
  | compare (c : Comparison) (a b : Condition)
  | range (x low high : Condition)
  | and (a b : Condition)
  | or (a b : Condition)
  | not (a : Condition)
  | action (a : Condition) (act : Action)

/-- The number that a condition stands for. A field counts as the machine loads
it. -/
def Condition.value (f : ipmb_frame_t) : Condition → Int32
  | .const v => v
  | .field fid => load_field f fid
  | .compare c a b => ofBool (c.holds (a.value f) (b.value f))
  | .range x low high => ofBool (decide (x.value f ≥ low.value f ∧ x.value f ≤ high.value f))
  | .and a b => ofBool (decide (a.value f ≠ 0) && decide (b.value f ≠ 0))
  | .or a b => ofBool (decide (a.value f ≠ 0) || decide (b.value f ≠ 0))
  | .not a => ofBool (decide (a.value f = 0))
  | .action a _ => a.value f

/-- The truth of a condition. -/
def Condition.holds (f : ipmb_frame_t) (c : Condition) : Bool := decide (c.value f ≠ 0)

/-- The program of a condition, operands first. -/
def Condition.code : Condition → List UInt8
  | .const v => IPMB_OP_PUSH_INT :: ipmb_store_le32 v.toUInt32
  | .field fid => [IPMB_OP_LOAD_FIELD, fid]
  | .compare c a b => a.code ++ (b.code ++ [c.opcode])
  | .range x low high => x.code ++ (low.code ++ (high.code ++ [IPMB_OP_RANGE, IPMB_OP_AND]))
  | .and a b => a.code ++ (b.code ++ [IPMB_OP_AND])
  | .or a b => a.code ++ (b.code ++ [IPMB_OP_OR])
  | .not a => a.code ++ [IPMB_OP_NOT]
  | .action a act => a.code ++ act.code

/-- How many slots the program needs. A range test is refused on a full stack
although it leaves less than it takes. -/
def Condition.slots : Condition → Nat
  | .const _ => 1
  | .field _ => 1
  | .compare _ a b => max a.slots (b.slots + 1)
  | .range x low high => max x.slots (max (low.slots + 1) (max (high.slots + 2) 4))
  | .and a b => max a.slots (b.slots + 1)
  | .or a b => max a.slots (b.slots + 1)
  | .not a => a.slots
  | .action a _ => a.slots

/-- What a rule tests: a field against a value, or against two. -/
def Condition.test (fid : UInt8) (op : ipmb_rule_op_t) (value high : Int32) : Condition :=
  match op with
  | .IPMB_RULE_CMP_EQ => .compare .eq (.field fid) (.const value)
  | .IPMB_RULE_CMP_GT => .compare .gt (.field fid) (.const value)
  | .IPMB_RULE_CMP_LT => .compare .lt (.field fid) (.const value)
  | .IPMB_RULE_RANGE => .range (.field fid) (.const value) (.const high)

/-- What the compiler emits for a rule is the program of its test. -/
theorem code_test (fid : UInt8) (op : ipmb_rule_op_t) (value high : Int32) :
    (Condition.test fid op value high).code ++ [IPMB_OP_END] =
      if op = .IPMB_RULE_RANGE then range_program fid value high else cmp_program fid op value := by
  cases op <;> simp [Condition.test, Condition.code, Comparison.opcode, cmp_program, cmp_opcode, range_program]

/-- A rule's test holds as the rule does. -/
theorem holds_test (f : ipmb_frame_t) (fid : UInt8) (op : ipmb_rule_op_t) (value high : Int32) :
    (Condition.test fid op value high).holds f = decide (RuleHolds op (load_field f fid) value high) := by
  cases op <;> exact ofBool_ne_zero _

theorem slots_test_le (fid : UInt8) (op : ipmb_rule_op_t) (value high : Int32) :
    (Condition.test fid op value high).slots ≤ 64 := by
  cases op <;> simp [Condition.test, Condition.slots]

section verdict

variable {f : ipmb_frame_t} {code code' rest : List UInt8} {st st' : List Int32}

/-- What code comes to on a stack. -/
def verdict (f : ipmb_frame_t) (code : List UInt8) (st : List Int32) : Option Bool :=
  run full64 f code.length code st

theorem verdict_stuck (h : step full64 f code st = none) : verdict f code st = none := by
  rw [verdict]
  cases code.length with
  | zero => rfl
  | succ fuel => rw [run, h]

/-- An instruction is carried out if there is room for it, and the code behind it
runs on what it leaves. -/
theorem verdict_exec {i : Instr} (hdecode : decode code = some (i, rest)) (hi : i ≠ .stop) :
    verdict f code st =
      if i.needsRoom && full64 st.length then none else (exec f i st).bind (verdict f rest) := by
  have hstep : step full64 f code st =
      if i.needsRoom && full64 st.length then none else (exec f i st).map fun st => .inl (rest, st) :=
    step_exec hdecode hi
  by_cases hroom : (i.needsRoom && full64 st.length) = true
  · rw [if_pos hroom] at hstep
    rw [if_pos hroom, verdict_stuck hstep]
  · rw [if_neg hroom] at hstep
    rw [if_neg hroom]
    cases hexec : exec f i st with
    | none =>
      rw [hexec] at hstep
      exact verdict_stuck hstep
    | some st' =>
      rw [hexec] at hstep
      have hshorter := decode_length_lt hdecode
      have hpos : code.length = (code.length - 1) + 1 := by omega
      rw [verdict, hpos, run_of_next hstep]
      exact run_eq_of_length_le (by omega) (Nat.le_refl _)

/-- An instruction that takes a slot. -/
theorem verdict_push {i : Instr} {v : Int32} (hdecode : decode code = some (i, rest)) (hneeds : i.needsRoom = true)
    (hexec : exec f i st = some (v :: st)) :
    verdict f code st = if st.length < 64 then verdict f rest (v :: st) else none := by
  have hi : i ≠ .stop := by
    rintro rfl
    cases hneeds
  rw [verdict_exec hdecode hi, hneeds, Bool.true_and, hexec, full64]
  by_cases hroom : st.length < 64
  · rw [if_pos hroom, if_neg (by simp [hroom])]
    rfl
  · rw [if_neg hroom, if_pos (decide_eq_true (not_lt.mp hroom))]

theorem verdict_load_field (fid : UInt8) :
    verdict f (IPMB_OP_LOAD_FIELD :: fid :: rest) st =
      if st.length < 64 then verdict f rest (load_field f fid :: st) else none :=
  verdict_push (i := .loadField fid) rfl rfl rfl

theorem verdict_push_int (v : Int32) :
    verdict f (IPMB_OP_PUSH_INT :: (ipmb_store_le32 v.toUInt32 ++ rest)) st =
      if st.length < 64 then verdict f rest (v :: st) else none := by
  have hload := ipmb_load_le32_store v.toUInt32 rest
  have hdrop : (ipmb_store_le32 v.toUInt32 ++ rest).drop 4 = rest :=
    List.drop_left' (length_ipmb_store_le32 v.toUInt32)
  exact verdict_push (i := .pushInt v) (by simp [decode, hload, hdrop]) rfl rfl

theorem verdict_compare (c : Comparison) (lhs rhs : Int32) :
    verdict f (c.opcode :: rest) (rhs :: lhs :: st) = verdict f rest (ofBool (c.holds lhs rhs) :: st) := by
  cases c with
  | eq => exact verdict_exec (i := .cmpEq) rfl (by decide)
  | gt => exact verdict_exec (i := .cmpGt) rfl (by decide)
  | lt => exact verdict_exec (i := .cmpLt) rfl (by decide)

theorem verdict_and (a b : Int32) :
    verdict f (IPMB_OP_AND :: rest) (b :: a :: st) =
      verdict f rest (ofBool (decide (a ≠ 0) && decide (b ≠ 0)) :: st) :=
  verdict_exec (i := .and) rfl (by decide)

theorem verdict_or (a b : Int32) :
    verdict f (IPMB_OP_OR :: rest) (b :: a :: st) =
      verdict f rest (ofBool (decide (a ≠ 0) || decide (b ≠ 0)) :: st) :=
  verdict_exec (i := .or) rfl (by decide)

theorem verdict_not (a : Int32) :
    verdict f (IPMB_OP_NOT :: rest) (a :: st) = verdict f rest (ofBool (decide (a = 0)) :: st) :=
  verdict_exec (i := .not) rfl (by decide)

/-- The two tests of a range and what joins them. -/
theorem verdict_range (x low high : Int32) :
    verdict f (IPMB_OP_RANGE :: IPMB_OP_AND :: rest) (high :: low :: x :: st) =
      if st.length + 3 < 64 then verdict f rest (ofBool (decide (x ≥ low ∧ x ≤ high)) :: st) else none := by
  have hneeds : Instr.range.needsRoom = true := rfl
  have hlength : (high :: low :: x :: st).length = st.length + 3 := rfl
  rw [verdict_exec (i := .range) rfl (by decide), hneeds, Bool.true_and, hlength, full64]
  by_cases hroom : st.length + 3 < 64
  · rw [if_pos hroom, if_neg fun hfull => Nat.not_le.mpr hroom (of_decide_eq_true hfull)]
    refine (verdict_and (ofBool (decide (x ≥ low))) (ofBool (decide (x ≤ high)))).trans ?_
    rw [ofBool_ne_zero, ofBool_ne_zero, Bool.decide_and]
  · rw [if_neg hroom, if_pos (decide_eq_true (not_lt.mp hroom))]

/-- An action is skipped with its operand. -/
theorem verdict_action (act : Action) : verdict f (act.code ++ rest) st = verdict f rest st := by
  have hdrop : (act.operand ++ rest).drop (UInt8.ofNat act.operand.length).toNat = rest := by
    rw [UInt8.toNat_ofNat_of_lt' act.fits, List.drop_left]
  have hdecode := decode_action (act.operand ++ rest) act.isAction (UInt8.ofNat act.operand.length)
  rw [hdrop] at hdecode
  exact verdict_exec hdecode (by decide)

end verdict

/-- The program of a condition leaves the condition's value on the stack, and gets
stuck exactly when there are not enough slots. The induction is on the
condition, for every stack and all code behind the program. -/
theorem verdict_condition (f : ipmb_frame_t) (c : Condition) (rest : List UInt8) (st : List Int32) :
    verdict f (c.code ++ rest) st =
      if st.length + c.slots ≤ 64 then verdict f rest (c.value f :: st) else none := by
  induction c generalizing rest st with
  | const v => exact verdict_push_int v
  | field fid => exact verdict_load_field fid
  | compare c a b iha ihb =>
    rw [Condition.code, Condition.slots, Condition.value, List.append_assoc, iha, List.append_assoc, ihb,
      List.singleton_append, verdict_compare, List.length_cons]
    split_ifs <;> first | rfl | omega
  | range x low high ihx ihlow ihhigh =>
    rw [Condition.code, Condition.slots, Condition.value, List.append_assoc, ihx, List.append_assoc, ihlow,
      List.append_assoc, ihhigh, List.cons_append, List.singleton_append, verdict_range]
    simp only [List.length_cons]
    split_ifs <;> first | rfl | omega
  | and a b iha ihb =>
    rw [Condition.code, Condition.slots, Condition.value, List.append_assoc, iha, List.append_assoc, ihb,
      List.singleton_append, verdict_and, List.length_cons]
    split_ifs <;> first | rfl | omega
  | or a b iha ihb =>
    rw [Condition.code, Condition.slots, Condition.value, List.append_assoc, iha, List.append_assoc, ihb,
      List.singleton_append, verdict_or, List.length_cons]
    split_ifs <;> first | rfl | omega
  | not a iha =>
    rw [Condition.code, Condition.slots, Condition.value, List.append_assoc, iha, List.singleton_append, verdict_not]
  | action a act iha =>
    rw [Condition.code, Condition.slots, Condition.value, List.append_assoc, iha, verdict_action]

theorem meaning_condition (c : Condition) (frame : ipmb_frame_t) :
    meaning (c.code ++ [IPMB_OP_END]) frame = if c.slots ≤ 64 then some (c.holds frame) else none := by
  have hverdict := verdict_condition frame c [IPMB_OP_END] []
  have hend : verdict frame [IPMB_OP_END] [c.value frame] = some (c.holds frame) := rfl
  rw [List.length_nil, Nat.zero_add, hend] at hverdict
  exact hverdict

/-- The machine decides every condition whose program fits its stack, and refuses
every other. -/
theorem ipmb_vm_evaluate_condition (c : Condition) (frame : ipmb_frame_t) :
    ipmb_vm_evaluate { code := c.code ++ [IPMB_OP_END] } frame =
      .ok (if c.slots ≤ 64 then (.IPMB_OK, c.holds frame) else (.IPMB_ERR_EVAL, false)) := by
  rw [ipmb_vm_evaluate_eq]
  dsimp only
  rw [meaning_condition]
  by_cases hfits : c.slots ≤ 64
  · rw [if_pos hfits, if_pos hfits]
    rfl
  · rw [if_neg hfits, if_neg hfits]
    rfl

end ipmb.condition
