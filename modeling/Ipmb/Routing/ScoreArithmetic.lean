import Ipmb.Routing.MatchSelection
import Ipmb.Util.IntArith

open fallible
open ipmb.frame_reader ipmb.rule_parser ipmb.rule_compiler ipmb.route_vm ipmb.int_arith

namespace ipmb.match_table

/-- The entry for a matching rule with its score added as an `int` is. -/
def result_int (frame : ipmb_frame_t) (rule : ipmb_match_rule_t) : Except Fault ipmb_match_result_t := do
  let score ← int_add rule.priority (Int32.ofNat frame.priority.toNat)
  return { name := strncpy_31 rule.name, priority := rule.priority, score := score.toInt }

/-- The evaluation with C's `int` for the scores. -/
def ipmb_match_table_evaluate_int (realloc : Allocator) (moves : Nat → Bool) (table : ipmb_match_table_t)
    (frame : ipmb_frame_t) : Except Fault (ipmb_status_t × Option ipmb_match_result_t) :=
  match_loop_with realloc moves frame (result_int frame) match_init table.rules

variable {frame : ipmb_frame_t} {rule : ipmb_match_rule_t}

theorem toInt_frame_priority (frame : ipmb_frame_t) :
    (Int32.ofNat frame.priority.toNat).toInt = frame.priority.toNat := by
  have hlt := frame.priority.toNat_lt
  exact Int32.toInt_ofNat_of_lt (by omega)

/-- Below the smallest `int` there is no score. -/
theorem scores_iff : rule.priority.toInt + frame.priority.toNat < 2 ^ 31 ↔
    InIntRange (rule.priority.toInt + (Int32.ofNat frame.priority.toNat).toInt) := by
  have hlow := (inIntRange_toInt rule.priority).1
  rw [toInt_frame_priority, InIntRange]
  omega

theorem result_int_of_scores (h : rule.priority.toInt + frame.priority.toNat < 2 ^ 31) :
    result_int frame rule = .ok (result_of frame rule) := by
  have hrange := scores_iff.mp h
  rw [result_int, int_add_of_inIntRange hrange, ok_bind, toInt_add_of_inIntRange hrange, toInt_frame_priority]
  rfl

theorem result_int_of_not_scores (h : ¬rule.priority.toInt + frame.priority.toNat < 2 ^ 31) :
    result_int frame rule = .error .signedOverflow := by
  rw [result_int, int_add_of_not_inIntRange (fun hrange => h (scores_iff.mpr hrange)), error_bind]

theorem result_int_ok_iff :
    (∃ r, result_int frame rule = .ok r) ↔ rule.priority.toInt + frame.priority.toNat < 2 ^ 31 := by
  constructor
  · rintro ⟨r, hr⟩
    by_contra hscores
    rw [result_int_of_not_scores hscores] at hr
    cases hr
  · exact fun hscores => ⟨_, result_int_of_scores hscores⟩

theorem result_int_eq {r : ipmb_match_result_t} (h : result_int frame rule = .ok r) : r = result_of frame rule := by
  have hscores := result_int_ok_iff.mp ⟨r, h⟩
  rw [result_int_of_scores hscores] at h
  exact (Except.ok.inj h).symm

theorem ipmb_match_table_evaluate_int_eq (realloc : Allocator) (moves : Nat → Bool) (table : ipmb_match_table_t)
    (frame : ipmb_frame_t) :
    ipmb_match_table_evaluate_int realloc moves table frame =
      settle_with realloc moves frame (result_int frame) [] (table.rules.filter (matching frame)) :=
  match_loop_with_eq (fun _ _ h => result_int_eq h) valid_init table.rules

theorem priority_le_of_selection {done : List ipmb_match_rule_t} {rc : ipmb_status_t} {winner : ipmb_match_result_t}
    (h : selection frame done = (rc, some winner)) (hrule : rule ∈ done) : rule.priority ≤ winner.priority := by
  rw [selection] at h
  obtain ⟨top, hmax⟩ := highest_of_ne_nil (List.ne_nil_of_mem hrule)
  rw [hmax] at h
  cases h
  exact Int32.le_iff_toInt_le.mpr (prio_le_of_highest hmax hrule)

/-- The evaluation adds no scores but `int`s and reads no array that moved, and a
winner has the highest priority of the matching rules. -/
def ScoresInRange (realloc : Allocator) (moves : Nat → Bool) (table : ipmb_match_table_t)
    (frame : ipmb_frame_t) : Prop :=
  ∃ rc out, ipmb_match_table_evaluate_int realloc moves table frame = .ok (rc, out) ∧
    ∀ winner, out = some winner → ∀ rule ∈ table.rules, matching frame rule = true → rule.priority ≤ winner.priority

/-- Each matching rule that the evaluation gets memory for must leave room for the
priority of the frame, and each but the first must find the array where it was. -/
theorem ipmb_match_table_scores_iff (realloc : Allocator) (moves : Nat → Bool) (table : ipmb_match_table_t)
    (frame : ipmb_frame_t) :
    ScoresInRange realloc moves table frame ↔
      ∀ (i : Nat) (rule : ipmb_match_rule_t), (table.rules.filter (matching frame))[i]? = some rule →
        (∀ n ≤ i, realloc n = true) →
          rule.priority.toInt + frame.priority.toNat < 2 ^ 31 ∧ (0 < i → moves i = false) := by
  have hiff := settle_with_ok_iff realloc moves frame (result_int frame) [] (table.rules.filter (matching frame))
  simp only [List.length_nil, Nat.zero_le, Nat.zero_add, true_implies, result_int_ok_iff] at hiff
  rw [← hiff, ScoresInRange, ipmb_match_table_evaluate_int_eq]
  constructor
  · rintro ⟨rc, out, hrun, -⟩
    exact ⟨_, hrun⟩
  · rintro ⟨⟨rc, out⟩, hrun⟩
    refine ⟨rc, out, hrun, ?_⟩
    rintro winner rfl rule hrule hmatch
    have hselects := settle_selects hrun
    rw [List.nil_append] at hselects
    exact priority_le_of_selection hselects (List.mem_filter.mpr ⟨hrule, hmatch⟩)

/-- One rule of the largest priority and a frame of priority one. -/
theorem ipmb_match_table_score_overflows :
    ¬∀ realloc moves table frame, ScoresInRange realloc moves table frame := by
  intro hall
  obtain ⟨rc, out, hrun, -⟩ := hall Allocator.succeeds still
    { rules := [{ name := [0x61], priority := 2147483647, code := { code := [1, 1, 0, 0, 0, 13] } }], capacity := 4 }
    { frame_type := 0, frame_flags := 0, source_addr := 0, dest_addr := 0, priority := 1, ttl := 0
      payload := [], payload_len := 0, crc := 0 }
  have hfault : ipmb_match_table_evaluate_int Allocator.succeeds still
      { rules := [{ name := [0x61], priority := 2147483647, code := { code := [1, 1, 0, 0, 0, 13] } }], capacity := 4 }
      { frame_type := 0, frame_flags := 0, source_addr := 0, dest_addr := 0, priority := 1, ttl := 0
        payload := [], payload_len := 0, crc := 0 } = .error .signedOverflow := by decide
  rw [hfault] at hrun
  cases hrun

end ipmb.match_table
