import Ipmb.Routing.Condition
import Ipmb.Routing.ScoreArithmetic

open fallible
open ipmb.frame_reader ipmb.rule_parser ipmb.rule_compiler ipmb.route_vm ipmb.stack_machine ipmb.match_table
open ipmb.condition

namespace ipmb.text_table

/-- A rule as a user of the table has it. -/
structure rule_source where
  name : List UInt8
  priority : Int32
  text : List UInt8

/-- A rule is parsed, compiled and added; one that fails on the way is left out. -/
def add_text (table : ipmb_match_table_t) (r : rule_source) : ipmb_match_table_t :=
  let (rc, ast) := ipmb_rule_parse r.text
  if rc ≠ .IPMB_OK then table
  else
    let (rc, bc) := ipmb_rule_compile Allocator.succeeds ast
    if rc ≠ .IPMB_OK then table
    else (ipmb_match_table_add Allocator.succeeds table r.name r.priority bc).2

def load_texts (rs : List rule_source) : ipmb_match_table_t := rs.foldl add_text ipmb_match_table_init

/-- What a text asks of a frame, if it is a rule about a field that there is. -/
def condition_of (text : List UInt8) : Option Condition :=
  let (rc, ast) := ipmb_rule_parse text
  if rc ≠ .IPMB_OK ∨ field_id ast.field = 0 then none
  else some (.test (field_id ast.field) ast.op ast.value ast.high)

/-- The frame is as the rule's text asks. -/
def rule_source.Matches (frame : ipmb_frame_t) (r : rule_source) : Prop :=
  ∃ c, condition_of r.text = some c ∧ c.holds frame = true

/-- The entry of a rule in the table. -/
def entry_of (r : rule_source) : Option ipmb_match_rule_t :=
  (condition_of r.text).map fun c =>
    { name := strncpy_31 r.name, priority := r.priority, code := { code := c.code ++ [IPMB_OP_END] } }

theorem rules_add_text (table : ipmb_match_table_t) (r : rule_source) :
    (add_text table r).rules = table.rules ++ (entry_of r).toList := by
  rw [add_text, entry_of, condition_of]
  generalize ipmb_rule_parse r.text = parsed
  obtain ⟨rc, ast⟩ := parsed
  dsimp only
  by_cases hrc : rc ≠ .IPMB_OK
  · rw [if_pos hrc, if_pos (.inl hrc)]
    exact (List.append_nil _).symm
  rw [if_neg hrc]
  by_cases hfield : field_id ast.field = 0
  · rw [ipmb_rule_compile_unknown _ ast hfield, if_pos (Or.inr hfield)]
    dsimp only
    rw [if_pos (by decide)]
    exact (List.append_nil _).symm
  · rw [ipmb_rule_compile_known ast hfield, if_neg (not_or.mpr ⟨hrc, hfield⟩), ← code_test]
    dsimp only
    rw [if_neg (by decide), ipmb_match_table_add, if_neg fun h => Allocator.not_refused _ h.2]
    rfl

theorem rules_load_texts (rs : List rule_source) : (load_texts rs).rules = rs.filterMap entry_of := by
  induction rs using List.reverseRecOn with
  | nil => rfl
  | append_singleton rs r ih =>
    rw [load_texts, List.foldl_append, List.foldl_cons, List.foldl_nil, rules_add_text, ← load_texts, ih,
      List.filterMap_append]
    cases hentry : entry_of r <;> simp [hentry]

section entries

variable {frame : ipmb_frame_t} {r : rule_source} {rule : ipmb_match_rule_t}

/-- The entry of a rule matches as its text says: a test never needs more slots
than the machine has. -/
theorem matching_entry (h : entry_of r = some rule) : matching frame rule = true ↔ r.Matches frame := by
  obtain ⟨c, hc, rfl⟩ := Option.map_eq_some_iff.mp h
  have hslots : c.slots ≤ 64 := by
    rw [condition_of] at hc
    dsimp only at hc
    split at hc
    · cases hc
    · cases hc
      exact slots_test_le _ _ _ _
  rw [matching_iff, ipmb_vm_evaluate_eq]
  dsimp only
  rw [meaning_condition, if_pos hslots, rule_source.Matches, hc]
  simp [report]

theorem priority_entry (h : entry_of r = some rule) : rule.priority = r.priority := by
  obtain ⟨c, -, rfl⟩ := Option.map_eq_some_iff.mp h
  rfl

theorem result_of_entry (h : entry_of r = some rule) :
    result_of frame rule =
      { name := r.name.take 31
        priority := r.priority
        score := r.priority.toInt + frame.priority.toNat } := by
  obtain ⟨c, -, rfl⟩ := Option.map_eq_some_iff.mp h
  rw [result_of]
  simp [strncpy_31]

theorem entry_of_matches (h : r.Matches frame) : ∃ rule, entry_of r = some rule ∧ matching frame rule = true := by
  obtain ⟨c, hc, -⟩ := id h
  refine ⟨_, by rw [entry_of, hc]; rfl, ?_⟩
  exact (matching_entry (by rw [entry_of, hc]; rfl)).mpr h

/-- The texts in front of, at and behind the entry that the evaluation selects. -/
theorem selection_of_texts {rs : List rule_source} (hsome : ∃ r ∈ rs, r.Matches frame) :
    ∃ before r after, rs = before ++ r :: after ∧ r.Matches frame ∧
      (∀ q ∈ before, q.Matches frame → q.priority < r.priority) ∧
      (∀ q ∈ after, q.Matches frame → q.priority ≤ r.priority) ∧
      selection frame ((load_texts rs).rules.filter (matching frame)) =
        (.IPMB_OK, some
          { name := r.name.take 31
            priority := r.priority
            score := r.priority.toInt + frame.priority.toNat }) := by
  obtain ⟨r, hr, hmatch⟩ := hsome
  obtain ⟨rule, hentry, hmatching⟩ := entry_of_matches hmatch
  have hrule : rule ∈ (load_texts rs).rules := by
    rw [rules_load_texts]
    exact List.mem_filterMap.mpr ⟨r, hr, hentry⟩
  obtain ⟨front, top, back, hsplit, htop, hfront, hback, hselection⟩ := selection_spec ⟨rule, hrule, hmatching⟩
  rw [rules_load_texts] at hsplit
  obtain ⟨before₁, tail, rfl, hbefore₁, htail⟩ := List.filterMap_eq_append_iff.mp hsplit
  obtain ⟨before₂, chosen, after, rfl, hnone, hchosen, hafter⟩ := List.filterMap_eq_cons_iff.mp htail
  refine ⟨before₁ ++ before₂, chosen, after, by rw [List.append_assoc], (matching_entry hchosen).mp htop, ?_, ?_, ?_⟩
  · intro q hq hqmatch
    obtain ⟨qrule, hqentry, hqmatching⟩ := entry_of_matches hqmatch
    obtain hq | hq := List.mem_append.mp hq
    · rw [← priority_entry hqentry, ← priority_entry hchosen]
      exact hfront qrule (by rw [← hbefore₁]; exact List.mem_filterMap.mpr ⟨q, hq, hqentry⟩) hqmatching
    · rw [hnone q hq] at hqentry
      cases hqentry
  · intro q hq hqmatch
    obtain ⟨qrule, hqentry, hqmatching⟩ := entry_of_matches hqmatch
    rw [← priority_entry hqentry, ← priority_entry hchosen]
    exact hback qrule (by rw [← hafter]; exact List.mem_filterMap.mpr ⟨q, hq, hqentry⟩) hqmatching
  · rw [hselection, result_of_entry hchosen]

end entries

/-- The entries that match are those of the texts that match. -/
theorem filter_load_texts_eq_nil_iff (rs : List rule_source) (frame : ipmb_frame_t) :
    (load_texts rs).rules.filter (matching frame) = [] ↔ ∀ r ∈ rs, ¬r.Matches frame := by
  rw [List.filter_eq_nil_iff, rules_load_texts]
  constructor
  · intro hnone r hr hmatch
    obtain ⟨rule, hentry, hmatching⟩ := entry_of_matches hmatch
    exact hnone rule (List.mem_filterMap.mpr ⟨r, hr, hentry⟩) hmatching
  · intro hnone rule hrule hmatching
    obtain ⟨r, hr, hentry⟩ := List.mem_filterMap.mp hrule
    exact hnone r hr ((matching_entry hentry).mp hmatching)

/-- From the texts of rules to the rule that a frame is routed by: with memory for
all of it, nothing is found exactly when the frame is as none of the texts asks.
Otherwise, where the scores of those that it is as are `int`s and the results array
does not move behind its first growth, the result is that of the first of the rules
of the highest priority among them. Texts that are no rules about a field make no
difference. -/
theorem text_table_selection (moves : Nat → Bool) (rs : List rule_source) (frame : ipmb_frame_t) :
    (ipmb_match_table_evaluate_int Allocator.succeeds moves (load_texts rs) frame = .ok (.IPMB_ERR_NOT_FOUND, none) ↔
      ∀ r ∈ rs, ¬r.Matches frame) ∧
    ((∃ r ∈ rs, r.Matches frame) →
      (∀ r ∈ rs, r.Matches frame → r.priority.toInt + frame.priority.toNat < 2 ^ 31) →
      (∀ n, 0 < n → moves n = false) →
      ∃ before r after, rs = before ++ r :: after ∧ r.Matches frame ∧
        (∀ q ∈ before, q.Matches frame → q.priority < r.priority) ∧
        (∀ q ∈ after, q.Matches frame → q.priority ≤ r.priority) ∧
        ipmb_match_table_evaluate_int Allocator.succeeds moves (load_texts rs) frame =
          .ok (.IPMB_OK, some
            { name := r.name.take 31
              priority := r.priority
              score := r.priority.toInt + frame.priority.toNat })) := by
  rw [ipmb_match_table_evaluate_int_eq]
  refine ⟨⟨fun hnothing r hr hmatch => ?_, fun hnone => ?_⟩, fun hsome hscores hmoves => ?_⟩
  · obtain ⟨_, n, hrefused⟩ | hselection := settle_with_cases hnothing
    · cases hrefused
    · obtain ⟨_, _, _, _, _, _, _, hresult⟩ := selection_of_texts ⟨r, hr, hmatch⟩
      rw [List.nil_append, hresult] at hselection
      cases hselection
  · rw [(filter_load_texts_eq_nil_iff rs frame).mpr hnone]
    rfl
  · obtain ⟨before, r, after, hsplit, hmatch, hbefore, hafter, hselection⟩ := selection_of_texts hsome
    have hentries : ∀ rule ∈ (load_texts rs).rules.filter (matching frame), ∃ r, result_int frame rule = .ok r := by
      intro rule hrule
      obtain ⟨hmem, hmatching⟩ := List.mem_filter.mp hrule
      rw [rules_load_texts] at hmem
      obtain ⟨q, hq, hentry⟩ := List.mem_filterMap.mp hmem
      have hscore := hscores q hq ((matching_entry hentry).mp hmatching)
      rw [← priority_entry hentry] at hscore
      exact ⟨_, result_int_of_scores hscore⟩
    refine ⟨before, r, after, hsplit, hmatch, hbefore, hafter, ?_⟩
    rw [← hselection]
    exact settle_with_granted hentries (fun _ _ => rfl) hmoves

end ipmb.text_table
