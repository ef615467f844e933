import Ipmb.ContainerMemory
import Ipmb.Routing.MatchSelection

open fallible ownership
open ipmb.endian ipmb.frame_reader ipmb.rule_parser ipmb.rule_compiler ipmb.route_vm ipmb.match_table

namespace ipmb.table_memory

/-- Bytecode and its block. -/
abbrev code_t := ipmb_rule_bytecode_t × Option Nat

section compiler
variable (grants : Nat → Bool)

def emit (c : code_t) (data : List UInt8) : Owning Fault (ipmb_status_t × code_t) :=
  if c.1.len + data.length > IPMB_MAX_RULE_CODE then pure (.IPMB_ERR_LIMIT, c)
  else do
    match ← realloc .useAfterFree grants c.2 with
    | none => pure (.IPMB_ERR_ALLOC, c)
    | some p => pure (.IPMB_OK, ({ code := c.1.code ++ data }, some p))

/-- What is emitted for a rule, one after the other. -/
def emissions (ast : ipmb_rule_ast_t) (fid : UInt8) : List (List UInt8) :=
  [[IPMB_OP_LOAD_FIELD], [fid]] ++
    (if ast.op = .IPMB_RULE_RANGE then
      [[IPMB_OP_PUSH_INT], ipmb_store_le32 ast.value.toUInt32, [IPMB_OP_PUSH_INT], ipmb_store_le32 ast.high.toUInt32,
        [IPMB_OP_RANGE], [IPMB_OP_AND]]
    else [[IPMB_OP_PUSH_INT], ipmb_store_le32 ast.value.toUInt32, [cmp_opcode ast.op]]) ++ [[IPMB_OP_END]]

/-- The emissions up to one that fails, and whether none does. -/
def emit_all : List (List UInt8) → code_t → Owning Fault (Bool × code_t)
  | [], c => pure (true, c)
  | data :: rest, c => do
    let (rc, c) ← emit grants c data
    if rc = .IPMB_OK then emit_all rest c else pure (false, c)

def rule_compile (ast : ipmb_rule_ast_t) : Owning Fault (ipmb_status_t × code_t) :=
  if field_id ast.field = 0 then pure (.IPMB_ERR_INVALID, .zero, none)
  else do
    let (emitted, c) ← emit_all grants (emissions ast (field_id ast.field)) (.zero, none)
    if emitted then pure (.IPMB_OK, c)
    else
      free .doubleFree c.2
      pure (.IPMB_ERR_ALLOC, .zero, none)

end compiler

section evaluation
variable (grants moves : Nat → Bool) (frame : ipmb_frame_t)

/-- A rule that matches. The results are released if there is no room for one more. -/
def match_step (s : match_state) (array : Option Nat) (rule : ipmb_match_rule_t) :
    Owning Fault (Option (match_state × Option Nat)) := do
  let s ← lift (repoint s rule)
  match ← realloc .useAfterFree grants array with
  | none =>
    free .doubleFree array
    pure none
  | some p =>
    let block := if moves p then s.block + 1 else s.block
    let s := { s with block, results := s.results ++ [result_of frame rule] }
    let s ← lift (update_best s (result_of frame rule))
    pure (some (s, some p))

def match_loop : match_state → Option Nat → List ipmb_match_rule_t →
    Owning Fault (ipmb_status_t × Option ipmb_match_result_t)
  | s, array, [] =>
    match s.best with
    | none => do
      free .doubleFree array
      pure (.IPMB_ERR_NOT_FOUND, none)
    | some p => do
      let best ← lift (deref s p)
      free .doubleFree array
      pure (.IPMB_OK, some best)
  | s, array, rule :: rules => do
    let (rc, matched) ← lift (ipmb_vm_evaluate rule.code frame)
    if rc ≠ .IPMB_OK ∨ matched = false then match_loop s array rules
    else
      match ← match_step grants moves frame s array rule with
      | none => pure (.IPMB_ERR_ALLOC, none)
      | some (s, array) => match_loop s array rules

def match_table_evaluate (rules : List ipmb_match_rule_t) : Owning Fault (ipmb_status_t × Option ipmb_match_result_t) :=
  match_loop grants moves frame match_init none rules

end evaluation

section compiler
variable {E : Fault → Prop} {grants : Nat → Bool} {n : Nat}

theorem compile_body_eq (alloc : Allocator) (ast : ipmb_rule_ast_t) (fid : UInt8) :
    compile_body alloc ast fid = forM (emissions ast fid) (rule_compiler.emit alloc) := by
  rw [compile_body, emissions]
  cases hop : ast.op <;> simp [emit_u8, emit_i32, cmp_opcode]

/-- The first of the emissions on values. -/
theorem run_emissions (alloc : Allocator) (data : List UInt8) (ds : List (List UInt8)) (bc : ipmb_rule_bytecode_t)
    (k : Nat) :
    (forM (data :: ds) (rule_compiler.emit alloc)).run { bc, allocs := k } =
      if bc.len + data.length > IPMB_MAX_RULE_CODE then .error .IPMB_ERR_LIMIT
      else if alloc k = false then .error .IPMB_ERR_ALLOC
      else (forM ds (rule_compiler.emit alloc)).run { bc := { code := bc.code ++ data }, allocs := k + 1 } := by
  rw [List.forM_cons, StateT.run_bind]
  change (rule_compiler.emit alloc data { bc, allocs := k } >>= _) = _
  rw [rule_compiler.emit]
  by_cases hlimit : bc.len + data.length > IPMB_MAX_RULE_CODE
  · rw [if_pos hlimit, if_pos hlimit]
    rfl
  · rw [if_neg hlimit, if_neg hlimit]
    by_cases hrefused : alloc k = false
    · rw [if_pos hrefused, if_pos hrefused]
      rfl
    · rw [if_neg hrefused, if_neg hrefused]
      rfl

/-- Emissions on memory go as those on values, with the answers from a request on. -/
theorem emit_all_spec (ds : List (List UInt8)) (c : code_t) (k : Nat) :
    Triple E (n + k) (blocks [c.2]) (emit_all grants ds c) fun r _ own => own = blocks [r.2.2] ∧
      (r.1 = true → ∃ k', (forM ds (rule_compiler.emit fun i => grants (n + i))).run { bc := c.1, allocs := k } =
        .ok ((), { bc := r.2.1, allocs := k' })) ∧
      (r.1 = false → ∃ e, (forM ds (rule_compiler.emit fun i => grants (n + i))).run { bc := c.1, allocs := k } =
        .error e) := by
  induction ds generalizing c k with
  | nil => exact Triple.pure ⟨rfl, fun _ => ⟨k, rfl⟩, fun h => by cases h⟩
  | cons data ds ih =>
    obtain ⟨bc, block⟩ := c
    simp only [run_emissions]
    rw [emit_all, emit]
    by_cases hlimit : bc.len + data.length > IPMB_MAX_RULE_CODE
    · rw [if_pos hlimit, if_pos hlimit, pure_bind]
      exact Triple.pure ⟨rfl, (fun h => by cases h), fun _ => ⟨_, rfl⟩⟩
    · rw [if_neg hlimit, if_neg hlimit, bind_assoc]
      refine Triple.bind Triple.realloc_cases ?_
      rintro _ _ _ (⟨hrefused, rfl, rfl⟩ | ⟨hgranted, rfl, rfl, rfl⟩)
      · rw [if_pos hrefused]
        exact Triple.pure ⟨rfl, (fun h => by cases h), fun _ => ⟨_, rfl⟩⟩
      · rw [if_neg (by rw [hgranted]; decide)]
        exact ih ({ code := bc.code ++ data }, some (n + k)) (k + 1)

theorem rule_compile_spec (ast : ipmb_rule_ast_t) :
    Triple E n 0 (rule_compile grants ast) fun r _ own => own = blocks [r.2.2] ∧
      (r.1 ≠ .IPMB_OK → r.2.2 = none) ∧ ipmb_rule_compile (fun i => grants (n + i)) ast = (r.1, r.2.1) := by
  rw [rule_compile, ipmb_rule_compile]
  by_cases hfield : field_id ast.field = 0
  · rw [if_pos hfield, if_pos hfield]
    exact Triple.pure ⟨rfl, fun _ => rfl, rfl⟩
  · rw [if_neg hfield, if_neg hfield, compile_body_eq]
    refine Triple.bind (emit_all_spec (emissions ast (field_id ast.field)) (.zero, none) 0) ?_
    rintro ⟨emitted, c⟩ _ _ ⟨rfl, hall, hsome⟩
    cases emitted with
    | true =>
      obtain ⟨k, hrun⟩ := hall rfl
      rw [hrun]
      exact Triple.pure ⟨rfl, fun h => absurd rfl h, rfl⟩
    | false =>
      obtain ⟨e, hrun⟩ := hsome rfl
      rw [hrun]
      refine Triple.bind (Triple.free_last (Q := fun _ _ own => own = 0) rfl) ?_
      rintro _ _ _ rfl
      exact Triple.pure ⟨rfl, fun _ => rfl, rfl⟩

end compiler

section evaluation
variable {grants moves : Nat → Bool} {frame : ipmb_frame_t} {n : Nat}

theorem repoint_results {s s' : match_state} {rule : ipmb_match_rule_t} (h : repoint s rule = .ok s') :
    s'.results = s.results := by
  rw [repoint] at h
  split at h
  · cases h
    rfl
  · obtain ⟨best, -, h⟩ := bind_eq_ok_iff.mp h
    split at h <;> cases h <;> rfl

theorem update_best_results {s s' : match_state} {r : ipmb_match_result_t} (h : update_best s r = .ok s') :
    s'.results = s.results := by
  rw [update_best] at h
  split at h
  · cases h
    rfl
  · obtain ⟨best, -, h⟩ := bind_eq_ok_iff.mp h
    split at h <;> cases h <;> rfl

/-- There is one request for each of the results. -/
theorem match_step_spec (s : match_state) (array : Option Nat) (rule : ipmb_match_rule_t) :
    Triple (fun e => match_table.match_step (fun i => grants (n + i)) (fun i => moves (n + i)) frame s rule = .error e)
      (n + s.results.length) (blocks [array]) (match_step grants moves frame s array rule) fun r n' own =>
        match_table.match_step (fun i => grants (n + i)) (fun i => moves (n + i)) frame s rule = .ok (r.map Prod.fst) ∧
          own = blocks [r.bind Prod.snd] ∧ ∀ s', r.map Prod.fst = some s' → n' = n + s'.results.length := by
  rw [match_step, match_table.match_step, match_step_with]
  cases hrepoint : repoint s rule with
  | error e => exact Triple.lift_bind_error rfl rfl
  | ok s₁ =>
    refine Triple.lift_bind_ok rfl ?_
    have hresults := repoint_results hrepoint
    simp only [ok_bind, exact_entry, hresults]
    refine Triple.bind Triple.realloc_cases ?_
    rintro _ _ _ (⟨hrefused, rfl, rfl⟩ | ⟨hgranted, rfl, rfl, rfl⟩)
    · rw [if_pos hrefused]
      refine Triple.bind (Triple.free_last (Q := fun _ _ own => own = 0) rfl) ?_
      rintro _ _ _ rfl
      exact Triple.pure ⟨rfl, rfl, fun s' h => by cases h⟩
    · rw [if_neg (by rw [hgranted]; decide)]
      dsimp only
      cases hupdate : update_best { s₁ with
          block := if moves (n + s.results.length) then s₁.block + 1 else s₁.block
          results := s.results ++ [result_of frame rule] } (result_of frame rule) with
      | error e => exact Triple.lift_bind_error rfl rfl
      | ok s₂ =>
        refine Triple.lift_bind_ok rfl (Triple.pure ⟨rfl, rfl, ?_⟩)
        rintro _ ⟨⟩
        rw [update_best_results hupdate, List.length_append]
        rfl

theorem match_loop_spec (s : match_state) (array : Option Nat) (rules : List ipmb_match_rule_t) :
    Triple (fun e => match_table.match_loop (fun i => grants (n + i)) (fun i => moves (n + i)) frame s rules = .error e)
      (n + s.results.length) (blocks [array]) (match_loop grants moves frame s array rules) fun r _ own =>
        own = 0 ∧ match_table.match_loop (fun i => grants (n + i)) (fun i => moves (n + i)) frame s rules = .ok r := by
  induction rules generalizing s array with
  | nil =>
    rw [match_loop, match_table.match_loop, match_loop_with]
    cases hbest : s.best with
    | none =>
      refine Triple.bind (Triple.free_last (Q := fun _ _ own => own = 0) rfl) ?_
      rintro _ _ _ rfl
      exact Triple.pure ⟨rfl, rfl⟩
    | some p =>
      dsimp only
      cases hderef : deref s p with
      | error e => exact Triple.lift_bind_error rfl rfl
      | ok best =>
        refine Triple.lift_bind_ok rfl ?_
        refine Triple.bind (Triple.free_last (Q := fun _ _ own => own = 0) rfl) ?_
        rintro _ _ _ rfl
        exact Triple.pure ⟨rfl, rfl⟩
  | cons rule rules ih =>
    rw [match_loop, match_table.match_loop, match_loop_with, ← match_table.match_step]
    cases hverdict : ipmb_vm_evaluate rule.code frame with
    | error e => exact Triple.lift_bind_error rfl rfl
    | ok verdict =>
      obtain ⟨rc, matched⟩ := verdict
      refine Triple.lift_bind_ok rfl ?_
      simp only [ok_bind]
      by_cases hskips : rc ≠ .IPMB_OK ∨ matched = false
      · rw [if_pos hskips, if_pos hskips]
        exact ih s array
      · rw [if_neg hskips, if_neg hskips]
        refine Triple.bind ((match_step_spec s array rule).mono (fun e he => ?_) fun _ _ _ h => h) ?_
        · rw [he]
          rfl
        rintro (_ | ⟨s', array'⟩) n' _ ⟨hstep, rfl, hcount⟩
        · rw [hstep]
          exact Triple.pure ⟨rfl, rfl⟩
        · obtain rfl := hcount s' rfl
          rw [hstep]
          exact ih s' array'

end evaluation

end ipmb.table_memory
