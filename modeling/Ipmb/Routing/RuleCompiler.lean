import Ipmb.Routing.RuleParser
import Ipmb.Util.Endian

open ipmb.endian ipmb.rule_parser

namespace ipmb.rule_compiler

/-- The code pointer and its length are one byte list; a null pointer has no
bytes. -/
structure ipmb_rule_bytecode_t where
  code : List UInt8
  deriving Repr, DecidableEq

def ipmb_rule_bytecode_t.len (bc : ipmb_rule_bytecode_t) : Nat := bc.code.length

def ipmb_rule_bytecode_t.zero : ipmb_rule_bytecode_t := { code := [] }

def IPMB_OP_PUSH_INT : UInt8 := 1

def IPMB_OP_LOAD_FIELD : UInt8 := 3

def IPMB_OP_CMP_EQ : UInt8 := 4

def IPMB_OP_CMP_GT : UInt8 := 5

def IPMB_OP_CMP_LT : UInt8 := 6

def IPMB_OP_RANGE : UInt8 := 7

def IPMB_OP_AND : UInt8 := 8

def IPMB_OP_OR : UInt8 := 9

def IPMB_OP_NOT : UInt8 := 10

def IPMB_OP_FORWARD : UInt8 := 11

def IPMB_OP_TAG : UInt8 := 12

def IPMB_OP_END : UInt8 := 13

/-- The known field names, as bytes. -/
def str_type : List UInt8 := [0x74, 0x79, 0x70, 0x65]

def str_flags : List UInt8 := [0x66, 0x6c, 0x61, 0x67, 0x73]

def str_source : List UInt8 := [0x73, 0x6f, 0x75, 0x72, 0x63, 0x65]

def str_dest : List UInt8 := [0x64, 0x65, 0x73, 0x74]

def str_priority : List UInt8 := [0x70, 0x72, 0x69, 0x6f, 0x72, 0x69, 0x74, 0x79]

def str_ttl : List UInt8 := [0x74, 0x74, 0x6c]

def str_payload_len : List UInt8 :=
  [0x70, 0x61, 0x79, 0x6c, 0x6f, 0x61, 0x64, 0x5f, 0x6c, 0x65, 0x6e]

def field_id (field : List UInt8) : UInt8 :=
  if field = str_type then 1
  else if field = str_flags then 2
  else if field = str_source then 3
  else if field = str_dest then 4
  else if field = str_priority then 5
  else if field = str_ttl then 6
  else if field = str_payload_len then 7
  else 0

/-- The bytecode under construction and the number of reallocations so far. -/
structure emit_state where
  bc : ipmb_rule_bytecode_t
  allocs : Nat

abbrev Emit := StateT emit_state (Except ipmb_status_t)

def emit (alloc : Allocator) (data : List UInt8) : Emit Unit := fun s =>
  if s.bc.len + data.length > IPMB_MAX_RULE_CODE then .error .IPMB_ERR_LIMIT
  else if alloc s.allocs = false then .error .IPMB_ERR_ALLOC
  else .ok ((), { bc := { code := s.bc.code ++ data }, allocs := s.allocs + 1 })

def emit_u8 (alloc : Allocator) (v : UInt8) : Emit Unit := emit alloc [v]

def emit_i32 (alloc : Allocator) (v : Int32) : Emit Unit :=
  emit alloc (ipmb_store_le32 v.toUInt32)

/-- The emissions of a compilation, in order. -/
def compile_body (alloc : Allocator) (ast : ipmb_rule_ast_t) (fid : UInt8) : Emit Unit := do
  emit_u8 alloc IPMB_OP_LOAD_FIELD
  emit_u8 alloc fid
  if ast.op = .IPMB_RULE_RANGE then
    emit_u8 alloc IPMB_OP_PUSH_INT
    emit_i32 alloc ast.value
    emit_u8 alloc IPMB_OP_PUSH_INT
    emit_i32 alloc ast.high
    emit_u8 alloc IPMB_OP_RANGE
    emit_u8 alloc IPMB_OP_AND
  else
    let op := IPMB_OP_CMP_EQ
    let op := if ast.op = .IPMB_RULE_CMP_GT then IPMB_OP_CMP_GT else op
    let op := if ast.op = .IPMB_RULE_CMP_LT then IPMB_OP_CMP_LT else op
    emit_u8 alloc IPMB_OP_PUSH_INT
    emit_i32 alloc ast.value
    emit_u8 alloc op
  emit_u8 alloc IPMB_OP_END

/-- Whatever an emission fails with, the bytecode is released and the status
is that of a failed allocation. -/
def ipmb_rule_compile (alloc : Allocator) (ast : ipmb_rule_ast_t) :
    ipmb_status_t × ipmb_rule_bytecode_t :=
  let fid := field_id ast.field
  if fid = 0 then (.IPMB_ERR_INVALID, .zero)
  else
    match (compile_body alloc ast fid).run { bc := .zero, allocs := 0 } with
    | .error _ => (.IPMB_ERR_ALLOC, .zero)
    | .ok (_, s) => (.IPMB_OK, s.bc)

/-- The comparison opcode of an operator that is not a range. -/
def cmp_opcode : ipmb_rule_op_t → UInt8
  | .IPMB_RULE_CMP_GT => IPMB_OP_CMP_GT
  | .IPMB_RULE_CMP_LT => IPMB_OP_CMP_LT
  | _ => IPMB_OP_CMP_EQ

/-- The whole program of a comparison. -/
def cmp_program (fid : UInt8) (op : ipmb_rule_op_t) (value : Int32) : List UInt8 :=
  IPMB_OP_LOAD_FIELD :: fid :: IPMB_OP_PUSH_INT :: ipmb_store_le32 value.toUInt32 ++
    [cmp_opcode op, IPMB_OP_END]

/-- The whole program of a range. -/
def range_program (fid : UInt8) (value high : Int32) : List UInt8 :=
  IPMB_OP_LOAD_FIELD :: fid :: IPMB_OP_PUSH_INT :: ipmb_store_le32 value.toUInt32 ++
    IPMB_OP_PUSH_INT :: ipmb_store_le32 high.toUInt32 ++ [IPMB_OP_RANGE, IPMB_OP_AND, IPMB_OP_END]

/-- Compiling a rule about a known field emits one of the two programs. -/
theorem ipmb_rule_compile_known (ast : ipmb_rule_ast_t) (hfield : field_id ast.field ≠ 0) :
    ipmb_rule_compile Allocator.succeeds ast =
      (.IPMB_OK, { code :=
        if ast.op = .IPMB_RULE_RANGE then range_program (field_id ast.field) ast.value ast.high
        else cmp_program (field_id ast.field) ast.op ast.value }) := by
  unfold ipmb_rule_compile
  rw [if_neg hfield]
  cases hop : ast.op <;> simp only [compile_body, hop, reduceCtorEq, if_true, if_false] <;> rfl

/-- Emissions that go through do the same where every allocation succeeds. -/
def Emit.AgreesWith {α : Type} (m m' : Emit α) : Prop := ∀ s r, m s = .ok r → m' s = .ok r

theorem emit_agrees (alloc : Allocator) (data : List UInt8) :
    Emit.AgreesWith (emit alloc data) (emit Allocator.succeeds data) := by
  intro s r h
  rw [emit] at h ⊢
  split at h
  · cases h
  · rename_i hlimit
    split at h
    · cases h
    · have hgranted : ¬Allocator.succeeds s.allocs = false := Bool.noConfusion
      rw [if_neg hlimit, if_neg hgranted]
      exact h

theorem Emit.AgreesWith.bind {α β : Type} {m m' : Emit α} {k k' : α → Emit β}
    (hm : Emit.AgreesWith m m') (hk : ∀ a, Emit.AgreesWith (k a) (k' a)) :
    Emit.AgreesWith (m >>= k) (m' >>= k') := by
  intro s r h
  change (m s >>= fun p => k p.1 p.2) = .ok r at h
  change (m' s >>= fun p => k' p.1 p.2) = .ok r
  cases hms : m s with
  | error e =>
    rw [hms] at h
    cases h
  | ok p =>
    rw [hms] at h
    rw [hm s p hms]
    exact hk p.1 p.2 r h

theorem compile_body_agrees (alloc : Allocator) (ast : ipmb_rule_ast_t) (fid : UInt8) :
    Emit.AgreesWith (compile_body alloc ast fid) (compile_body Allocator.succeeds ast fid) := by
  have hu8 (v : UInt8) : Emit.AgreesWith (emit_u8 alloc v) (emit_u8 Allocator.succeeds v) :=
    emit_agrees alloc [v]
  have hi32 (v : Int32) : Emit.AgreesWith (emit_i32 alloc v) (emit_i32 Allocator.succeeds v) :=
    emit_agrees alloc (ipmb_store_le32 v.toUInt32)
  refine (hu8 _).bind fun _ => (hu8 _).bind fun _ => ?_
  by_cases hop : ast.op = .IPMB_RULE_RANGE
  · rw [if_pos hop, if_pos hop]
    exact (hu8 _).bind fun _ => (hi32 _).bind fun _ => (hu8 _).bind fun _ => (hi32 _).bind fun _ =>
      (hu8 _).bind fun _ => (hu8 _).bind fun _ => hu8 _
  · rw [if_neg hop, if_neg hop]
    exact (hu8 _).bind fun _ => (hi32 _).bind fun _ => (hu8 _).bind fun _ => hu8 _

/-- A rule that is compiled names a known field, and the code is that of a
compilation without failures. -/
theorem ipmb_rule_compile_ok {alloc : Allocator} {ast : ipmb_rule_ast_t} {bc : ipmb_rule_bytecode_t}
    (h : ipmb_rule_compile alloc ast = (.IPMB_OK, bc)) :
    field_id ast.field ≠ 0 ∧ ipmb_rule_compile Allocator.succeeds ast = (.IPMB_OK, bc) := by
  unfold ipmb_rule_compile at h ⊢
  by_cases hfield : field_id ast.field = 0
  · rw [if_pos hfield] at h
    cases h
  · refine ⟨hfield, ?_⟩
    rw [if_neg hfield] at h ⊢
    split at h
    · cases h
    · rename_i u s hbody
      have hagrees := compile_body_agrees alloc ast (field_id ast.field) _ _ hbody
      change (compile_body Allocator.succeeds ast (field_id ast.field)).run _ = _ at hagrees
      rw [hagrees]
      exact h

theorem ipmb_rule_compile_unknown (alloc : Allocator) (ast : ipmb_rule_ast_t)
    (hfield : field_id ast.field = 0) :
    ipmb_rule_compile alloc ast = (.IPMB_ERR_INVALID, .zero) := by
  unfold ipmb_rule_compile
  rw [if_pos hfield]

end ipmb.rule_compiler
