import Ipmb.Routing.TableMemory
import Ipmb.Routing.TextTable

open fallible ownership
open ipmb.frame_reader ipmb.rule_parser ipmb.rule_compiler ipmb.match_table ipmb.condition ipmb.text_table
open ipmb.grown_array ipmb.container_memory ipmb.table_memory

namespace ipmb.match_table_harness

/-- The frame that the first bytes configure. -/
def frame_of (b₀ b₁ b₂ b₃ : UInt8) : ipmb_frame_t where
  frame_type := b₀.toUInt16
  frame_flags := 0
  source_addr := b₁.toUInt32
  dest_addr := b₂.toUInt32
  priority := b₃.toUInt16
  ttl := 64
  payload := []
  payload_len := 8
  crc := 0

/-- The bytes up to a terminator, no more than 100. -/
def rule_str (rest : List UInt8) : List UInt8 := (rest.take 100).takeWhile fun b => b != 0

section programs
variable (grants moves : Nat → Bool)

/-- A text that is a rule is compiled and added, and its own bytecode released. -/
def add_rule (rule_idx : Nat) (text : List UInt8) (table : Grown ipmb_match_rule_t) :
    Owning Fault (Grown ipmb_match_rule_t) :=
  if text = [] then pure table
  else
    let (rc, ast) := ipmb_rule_parse text
    if rc ≠ .IPMB_OK then pure table
    else do
      let (rc, bc) ← rule_compile grants ast
      if rc ≠ .IPMB_OK then pure table
      else
        -- the name is `auto`, and the status is not looked at
        let (_, table) ← match_table_add grants moves table [0x61, 0x75, 0x74, 0x6f] (Int32.ofNat (rule_idx + 1)) bc.1
        free .doubleFree bc.2
        pure table

/-- The loop over the texts, of which `rounds` are left. -/
def load_rules : Nat → Nat → List UInt8 → Grown ipmb_match_rule_t → Owning Fault (Grown ipmb_match_rule_t)
  | 0, _, _, table => pure table
  | rounds + 1, rule_idx, rest, table =>
    if rest = [] then pure table
    else do
      let table ← add_rule grants moves rule_idx (rule_str rest) table
      load_rules rounds (rule_idx + 1) (rest.drop ((rule_str rest).length + 1)) table

/-- Rules are read from the bytes behind the frame and the table is evaluated on it. -/
def LLVMFuzzerTestOneInput : List UInt8 → Owning Fault Unit
  | b₀ :: b₁ :: b₂ :: b₃ :: rest => do
    let table ← load_rules grants moves 10 0 rest .empty
    let _ ← match_table_evaluate grants moves (frame_of b₀ b₁ b₂ b₃) table.values
    let _ ← table.release
    pure ()
  | _ => pure ()

end programs

/-- The texts that the loop comes to. -/
def texts : Nat → List UInt8 → List (List UInt8)
  | 0, _ => []
  | rounds + 1, rest =>
    if rest = [] then [] else rule_str rest :: texts rounds (rest.drop ((rule_str rest).length + 1))

/-- The text is a rule, and the frame is as it asks. -/
def asks (frame : ipmb_frame_t) (text : List UInt8) : Bool := (condition_of text).any fun c => c.holds frame

/-- The frame is as two of the texts ask. -/
def Rivals : List UInt8 → Prop
  | b₀ :: b₁ :: b₂ :: b₃ :: rest => 2 ≤ (texts 10 rest).countP (asks (frame_of b₀ b₁ b₂ b₃))
  | _ => False

section rules
variable {frame : ipmb_frame_t} {text : List UInt8} {ast : ipmb_rule_ast_t} {bc : ipmb_rule_bytecode_t}

theorem asks_of_parse_error (h : (ipmb_rule_parse text).1 ≠ .IPMB_OK) : asks frame text = false := by
  have hnone : condition_of text = none := if_pos (.inl h)
  rw [asks, hnone]
  rfl

theorem asks_of_unknown (hparse : ipmb_rule_parse text = (.IPMB_OK, ast)) (hfield : field_id ast.field = 0) :
    asks frame text = false := by
  have hnone : condition_of text = none := by
    rw [condition_of, hparse]
    exact if_pos (.inr hfield)
  rw [asks, hnone]
  rfl

/-- What a text compiles to matches as the text asks. -/
theorem matching_of_compile {alloc : Allocator} (hparse : ipmb_rule_parse text = (.IPMB_OK, ast))
    (hcompile : ipmb_rule_compile alloc ast = (.IPMB_OK, bc)) (name : List UInt8) (priority : Int32) :
    matching frame { name, priority, code := bc } = asks frame text := by
  obtain ⟨hfield, hknown⟩ := ipmb_rule_compile_ok hcompile
  rw [ipmb_rule_compile_known ast hfield, ← code_test] at hknown
  obtain rfl := (Prod.mk.inj hknown).2
  have hcondition : condition_of text = some (.test (field_id ast.field) ast.op ast.value ast.high) := by
    rw [condition_of, hparse]
    exact if_neg (not_or.mpr ⟨fun h => h rfl, hfield⟩)
  have hentry : entry_of { name, priority, text } = (condition_of text).map _ := rfl
  rw [hcondition, Option.map_some] at hentry
  have hmatching : matching frame _ = true ↔ rule_source.Matches frame { name, priority, text } := matching_entry hentry
  rw [rule_source.Matches, hcondition] at hmatching
  simp only [Option.some.injEq, exists_eq_left'] at hmatching
  rw [asks, hcondition, Option.any_some, Bool.eq_iff_iff, ← hmatching]
  rfl

end rules

/-- How many rules of a table match. -/
def matches_of (frame : ipmb_frame_t) (table : Grown ipmb_match_rule_t) : Nat := table.values.countP (matching frame)

/-- The matching rules of a table become more by no more than a number of texts, and by
all of them if every request is granted. -/
structure Gains (grants : Nat → Bool) (frame : ipmb_frame_t) (k : Nat) (table table' : Grown ipmb_match_rule_t) :
    Prop where
  le : matches_of frame table' ≤ matches_of frame table + k
  eq : (∀ i, grants i = true) → matches_of frame table' = matches_of frame table + k

section run
variable {grants moves : Nat → Bool} {frame : ipmb_frame_t} {k k' n : Nat}
  {table table' table'' : Grown ipmb_match_rule_t}

theorem Gains.refl : Gains grants frame 0 table table := ⟨Nat.le_refl _, fun _ => rfl⟩

theorem Gains.none (hrefused : ∃ i, grants i = false) : Gains grants frame k table table := by
  refine ⟨Nat.le_add_right _ k, fun hgranted => ?_⟩
  obtain ⟨i, hi⟩ := hrefused
  rw [hgranted i] at hi
  cases hi

theorem Gains.trans (h : Gains grants frame k table table') (h' : Gains grants frame k' table' table'') :
    Gains grants frame (k + k') table table'' := by
  refine ⟨?_, fun hgranted => ?_⟩
  · have hle := h.le
    have hle' := h'.le
    omega
  · rw [h'.eq hgranted, h.eq hgranted, Nat.add_assoc]

/-- A rule that was compiled counts if it is added. -/
theorem gains_of_add {alloc : Allocator} {rc : ipmb_status_t} {name : List UInt8} {priority : Int32}
    {bc : ipmb_rule_bytecode_t} {b : Bool}
    (hadd : ipmb_match_table_add alloc (table_of table) name priority bc = (rc, table_of table'))
    (hrc : rc ≠ .IPMB_OK → ∃ i, grants i = false)
    (hmatching : matching frame { name := strncpy_31 name, priority, code := bc } = b) :
    Gains grants frame (if b then 1 else 0) table table' := by
  have hfilter := congrArg List.length (matching_add alloc (table_of table) name priority bc frame)
  rw [hadd, List.length_append, ← List.countP_eq_length_filter, ← List.countP_eq_length_filter] at hfilter
  have hmore : matches_of frame table' = matches_of frame table + if rc = .IPMB_OK ∧ b then 1 else 0 := by
    refine hfilter.trans (congrArg _ ?_)
    by_cases hok : rc = .IPMB_OK
    · cases b <;> simp [hok, hmatching]
    · simp [hok]
  refine ⟨?_, fun hgranted => ?_⟩
  · rw [hmore]
    by_cases hok : rc = .IPMB_OK <;> cases b <;> simp [hok]
  · have hok : rc = .IPMB_OK := by
      by_contra hfailed
      obtain ⟨i, hi⟩ := hrc hfailed
      rw [hgranted i] at hi
      cases hi
    rw [hmore]
    simp [hok]

theorem add_rule_spec (frame : ipmb_frame_t) (rule_idx : Nat) (text : List UInt8) (table : Grown ipmb_match_rule_t) :
    Triple (fun _ => False) n (blocks table.pointers) (add_rule grants moves rule_idx text table) fun table' _ own =>
      own = blocks table'.pointers ∧ Gains grants frame (if asks frame text then 1 else 0) table table' := by
  rw [add_rule]
  by_cases htext : text = []
  · rw [if_pos htext, htext]
    exact Triple.pure ⟨rfl, .refl⟩
  rw [if_neg htext]
  cases hparse : ipmb_rule_parse text with
  | mk rc ast =>
    dsimp only
    by_cases hrc : rc ≠ .IPMB_OK
    · rw [if_pos hrc, asks_of_parse_error (by rw [hparse]; exact hrc)]
      exact Triple.pure ⟨rfl, .refl⟩
    obtain rfl : rc = .IPMB_OK := not_not.mp hrc
    rw [if_neg hrc, ← zero_add (blocks table.pointers)]
    refine Triple.bind ((rule_compile_spec ast).frame _) ?_
    rintro ⟨rc, bc, p⟩ n' _ ⟨_, ⟨rfl, hnone, hcompile⟩, rfl⟩
    dsimp only at hnone hcompile ⊢
    by_cases hrc : rc ≠ .IPMB_OK
    · rw [if_pos hrc, hnone hrc, blocks_none, blocks_nil, zero_add]
      refine Triple.pure ⟨rfl, ?_⟩
      by_cases hfield : field_id ast.field = 0
      · rw [asks_of_unknown hparse hfield]
        exact .refl
      · refine .none ?_
        by_contra hgranted
        push Not at hgranted
        have hsucceeds : (fun i => grants (n + i)) = Allocator.succeeds :=
          funext fun i => Bool.eq_true_of_not_eq_false (hgranted (n + i))
        rw [hsucceeds, ipmb_rule_compile_known ast hfield] at hcompile
        exact hrc (Prod.mk.inj hcompile).1.symm
    obtain rfl : rc = .IPMB_OK := not_not.mp hrc
    rw [if_neg hrc, add_comm]
    refine Triple.bind (((match_table_add_spec table _ _ bc).frame _).mono (fun _ h => h) fun _ _ _ h => h) ?_
    rintro ⟨rc, table'⟩ n'' _ ⟨_, ⟨rfl, hfailed, alloc, -, hadd⟩, rfl⟩
    rw [add_comm]
    refine Triple.bind (Triple.free (Q := fun _ _ own => own = blocks table'.pointers) rfl) ?_
    rintro _ _ _ rfl
    exact Triple.pure ⟨rfl, gains_of_add hadd hfailed (matching_of_compile hparse hcompile _ _)⟩

theorem load_rules_spec (frame : ipmb_frame_t) (rounds rule_idx : Nat) (rest : List UInt8)
    (table : Grown ipmb_match_rule_t) :
    Triple (fun _ => False) n (blocks table.pointers) (load_rules grants moves rounds rule_idx rest table)
      fun table' _ own => own = blocks table'.pointers ∧
        Gains grants frame ((texts rounds rest).countP (asks frame)) table table' := by
  induction rounds generalizing rule_idx rest table n with
  | zero => exact Triple.pure ⟨rfl, .refl⟩
  | succ rounds ih =>
    rw [load_rules, texts]
    by_cases hrest : rest = []
    · rw [if_pos hrest, if_pos hrest]
      exact Triple.pure ⟨rfl, .refl⟩
    rw [if_neg hrest, if_neg hrest]
    refine Triple.bind (add_rule_spec frame rule_idx (rule_str rest) table) ?_
    rintro table₁ n₁ _ ⟨rfl, hgains⟩
    refine (ih (rule_idx + 1) _ table₁).mono (fun _ h => h) ?_
    rintro table' _ _ ⟨rfl, hmore⟩
    have hcount : (rule_str rest :: texts rounds (rest.drop ((rule_str rest).length + 1))).countP (asks frame) =
        (if asks frame (rule_str rest) then 1 else 0) +
          (texts rounds (rest.drop ((rule_str rest).length + 1))).countP (asks frame) := by
      rw [List.countP_cons, Nat.add_comm]
    rw [hcount]
    exact ⟨rfl, hgains.trans hmore⟩

/-- An evaluation reads a released array only where two rules match and blocks move, and
there it does if all requests are granted and each block moves. -/
theorem match_table_evaluate_spec (rules : List ipmb_match_rule_t) :
    Triple (fun e => e = .useAfterFree ∧ 2 ≤ rules.countP (matching frame) ∧ ∃ p, moves p = true) n 0
      (match_table_evaluate grants moves frame rules) fun _ _ own => own = 0 ∧
        ((∀ i, grants i = true) → (∀ p, moves p = true) → rules.countP (matching frame) < 2) := by
  have hloop : Triple _ n (blocks [none]) (match_table_evaluate grants moves frame rules) _ :=
    match_loop_spec match_init none rules
  rw [blocks_none, blocks_nil] at hloop
  refine hloop.mono ?_ ?_
  · intro e he
    rw [match_loop_eq valid_init] at he
    obtain ⟨rfl, hmany, p, hp⟩ := settle_error he
    rw [List.nil_append, ← List.countP_eq_length_filter] at hmany
    exact ⟨rfl, hmany, n + p, hp⟩
  · rintro r _ own ⟨rfl, hr⟩
    refine ⟨rfl, fun hgranted hmoves => ?_⟩
    rw [match_loop_eq valid_init] at hr
    have hstill := (settle_ok_iff _ _ frame [] _).mp ⟨r, hr⟩
    by_contra hmany
    rw [List.countP_eq_length_filter] at hmany
    obtain ⟨m, -, -, hrefused⟩ := hstill 1 (Nat.zero_le 1) Nat.one_pos (by rw [List.nil_append]; omega) (hmoves _)
    rw [hgranted] at hrefused
    cases hrefused

/-- The whole program. -/
theorem LLVMFuzzerTestOneInput_spec (grants moves : Nat → Bool) (data : List UInt8) :
    Triple (fun e => e = .useAfterFree ∧ Rivals data ∧ ∃ p, moves p = true) n 0
      (LLVMFuzzerTestOneInput grants moves data) fun _ _ own => own = 0 ∧
        ((∀ i, grants i = true) → (∀ p, moves p = true) → ¬Rivals data) := by
  match data with
  | [] | [_] | [_, _] | [_, _, _] => exact Triple.pure ⟨rfl, fun _ _ h => h⟩
  | b₀ :: b₁ :: b₂ :: b₃ :: rest =>
    refine Triple.bind ((load_rules_spec (frame_of b₀ b₁ b₂ b₃) 10 0 rest .empty).mono (fun _ h => h.elim)
      fun _ _ _ h => h) ?_
    rintro table n₁ _ ⟨rfl, hgains⟩
    have hnone : matches_of (frame_of b₀ b₁ b₂ b₃) .empty = 0 := rfl
    have hle := hgains.le
    have heq := hgains.eq
    rw [hnone, Nat.zero_add] at hle heq
    rw [← zero_add (blocks table.pointers)]
    refine Triple.bind (((match_table_evaluate_spec table.values).frame _).mono ?_ fun _ _ _ h => h) ?_
    · rintro e ⟨rfl, hmany, hmoves⟩
      exact ⟨rfl, hmany.trans hle, hmoves⟩
    · rintro _ n₂ _ ⟨_, ⟨rfl, hfew⟩, rfl⟩
      rw [zero_add, ← add_zero (blocks table.pointers)]
      refine Triple.bind (Grown.release_rule (Q := fun _ _ own => own = 0) rfl) ?_
      rintro _ _ _ rfl
      refine Triple.pure ⟨rfl, fun hgranted hmoves hrivals => ?_⟩
      have hlt := hfew hgranted hmoves
      rw [← matches_of, heq hgranted] at hlt
      exact Nat.not_le.mpr hlt hrivals

end run

/-- However requests are answered and wherever blocks go, the program ends with all its
memory released, or reads the results where they no longer are. The latter takes two
texts that ask for the frame and a block that moves; with memory for every request and
blocks that all move, two such texts are enough. -/
theorem match_table_harness_runs (grants moves : Nat → Bool) (data : List UInt8) :
    ((LLVMFuzzerTestOneInput grants moves data).run Blocks.empty = .error .useAfterFree ∧ Rivals data ∧
        (∃ p, moves p = true) ∨
      ∃ m, (LLVMFuzzerTestOneInput grants moves data).run Blocks.empty = .ok ((), m) ∧ m.live = 0) ∧
    ((∀ i, grants i = true) → (∀ p, moves p = true) → Rivals data →
      (LLVMFuzzerTestOneInput grants moves data).run Blocks.empty = .error .useAfterFree) := by
  obtain ⟨_, herror, rfl, hrivals, hmoves⟩ | ⟨_, m, own, hok, ⟨rfl, hfew⟩, hlive⟩ :=
    LLVMFuzzerTestOneInput_spec grants moves data Blocks.empty 0 rfl rfl
  · exact ⟨.inl ⟨herror, hrivals, hmoves⟩, fun _ _ _ => herror⟩
  · exact ⟨.inr ⟨m, hok, hlive⟩, fun hgranted hall hrivals => absurd hrivals (hfew hgranted hall)⟩

/-- `ttl > 9` and `ttl > 8` ask for every frame that the program makes. -/
example : Rivals ([0, 0, 0, 0] ++ [0x74, 0x74, 0x6c, 0x20, 0x3e, 0x20, 0x39] ++ 0 ::
    [0x74, 0x74, 0x6c, 0x20, 0x3e, 0x20, 0x38]) := by
  change 2 ≤ _
  decide +kernel

end ipmb.match_table_harness
