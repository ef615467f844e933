import Ipmb.Routing.RouteVm

open ipmb.endian ipmb.frame_reader ipmb.rule_parser ipmb.rule_compiler ipmb.route_vm

namespace ipmb.match_table

/-- The score is the exact sum, as if `int` had no bound. -/
structure ipmb_match_result_t where
  name : List UInt8
  priority : Int32
  score : Int
  deriving Repr, DecidableEq

structure ipmb_match_rule_t where
  name : List UInt8
  priority : Int32
  code : ipmb_rule_bytecode_t
  deriving Repr, DecidableEq

/-- The rules in use, `count` of them, and for how many the array has room. -/
structure ipmb_match_table_t where
  rules : List ipmb_match_rule_t
  capacity : Nat
  deriving Repr, DecidableEq

def ipmb_match_table_init : ipmb_match_table_t := { rules := [], capacity := 0 }

def ipmb_rule_bytecode_clone (malloc : Bool) (src : ipmb_rule_bytecode_t) :
    ipmb_status_t × ipmb_rule_bytecode_t :=
  if malloc then (.IPMB_OK, src) else (.IPMB_ERR_ALLOC, .zero)

/-- A rule whose code could not be cloned stays in the table, without code. -/
def ipmb_match_table_add (alloc : Allocator) (table : ipmb_match_table_t) (name : List UInt8)
    (priority : Int32) (code : ipmb_rule_bytecode_t) : ipmb_status_t × ipmb_match_table_t :=
  let full := table.rules.length = table.capacity
  if full ∧ alloc 0 = false then (.IPMB_ERR_ALLOC, table)
  else
    let next_cap := if table.capacity = 0 then 4 else table.capacity * 2
    let (rc, code) := ipmb_rule_bytecode_clone (alloc 1) code
    (rc, { rules := table.rules ++ [{ name := strncpy_31 name, priority, code }]
           capacity := if full then next_cap else table.capacity })

/-- The local variables of the evaluation loop. The results array is known by
the number of its block, which changes when the array moves; `best` is the
block it points into and a position there. -/
structure match_state where
  block : Nat
  results : List ipmb_match_result_t
  best : Option (Nat × Nat)
  deriving Repr, DecidableEq

def match_init : match_state := { block := 0, results := [], best := none }

/-- A read through `best`. -/
def deref (s : match_state) (p : Nat × Nat) : Except Fault ipmb_match_result_t :=
  if p.1 = s.block then
    match s.results[p.2]? with
    | some r => .ok r
    | none => .error .readOutOfBounds
  else .error .useAfterFree

/-- The entry that a matching rule adds to the results. -/
def result_of (frame : ipmb_frame_t) (rule : ipmb_match_rule_t) : ipmb_match_result_t :=
  { name := strncpy_31 rule.name
    priority := rule.priority
    score := rule.priority.toInt + frame.priority.toNat }

/-- The comparison before the growth: `best` is set to the last entry. -/
def repoint (s : match_state) (rule : ipmb_match_rule_t) : Except Fault match_state :=
  match s.best with
  | none => .ok s
  | some p => do
    let best ← deref s p
    if rule.priority.toInt > best.score then
      pure { s with best := some (s.block, s.results.length - 1) }
    else pure s

/-- The comparison after the growth, with the new entry at the end. -/
def update_best (s : match_state) (r : ipmb_match_result_t) : Except Fault match_state :=
  match s.best with
  | none => .ok { s with best := some (s.block, s.results.length - 1) }
  | some p => do
    let best ← deref s p
    if r.score > best.score then
      pure { s with best := some (s.block, s.results.length - 1) }
    else pure s

section evaluation
variable (realloc : Allocator) (moves : Nat → Bool) (frame : ipmb_frame_t)
  (entry : ipmb_match_rule_t → Except Fault ipmb_match_result_t)

/-- What the loop does with a rule that matches: nothing is left if the array
cannot grow. The array moves where `moves` says so. The score is added as the
`entry` of the rule has it. -/
def match_step_with (s : match_state) (rule : ipmb_match_rule_t) : Except Fault (Option match_state) := do
  let s ← repoint s rule
  let count := s.results.length
  if realloc count = false then pure none
  else
    let block := if moves count then s.block + 1 else s.block
    let result ← entry rule
    let s := { s with block, results := s.results ++ [result] }
    return some (← update_best s result)

/-- Status and what is copied to `*out`. -/
def match_loop_with : match_state → List ipmb_match_rule_t → Except Fault (ipmb_status_t × Option ipmb_match_result_t)
  | s, [] =>
    match s.best with
    | none => .ok (.IPMB_ERR_NOT_FOUND, none)
    | some p => do return (.IPMB_OK, some (← deref s p))
  | s, rule :: rules => do
    let (rc, matched) ← ipmb_vm_evaluate rule.code frame
    if rc ≠ .IPMB_OK ∨ matched = false then match_loop_with s rules
    else
      match ← match_step_with realloc moves entry s rule with
      | none => pure (.IPMB_ERR_ALLOC, none)
      | some s => match_loop_with s rules

/-- The entry with the exact sum for its score. -/
def exact_entry (rule : ipmb_match_rule_t) : Except Fault ipmb_match_result_t := .ok (result_of frame rule)

def match_step : match_state → ipmb_match_rule_t → Except Fault (Option match_state) :=
  match_step_with realloc moves (exact_entry frame)

def match_loop : match_state → List ipmb_match_rule_t → Except Fault (ipmb_status_t × Option ipmb_match_result_t) :=
  match_loop_with realloc moves frame (exact_entry frame)

end evaluation

/-- `realloc` and `moves` say how the numbered growths of the results array
end: whether they succeed and whether the array is then somewhere else. -/
def ipmb_match_table_evaluate (realloc : Allocator) (moves : Nat → Bool) (table : ipmb_match_table_t)
    (frame : ipmb_frame_t) : Except Fault (ipmb_status_t × Option ipmb_match_result_t) :=
  match_loop realloc moves frame match_init table.rules

end ipmb.match_table
