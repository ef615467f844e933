import Ipmb.Routing.MatchTable
import Ipmb.Routing.Simulation
import Ipmb.Support.Fallible
import Ipmb.Support.FirstMax

open fallible first_max
open ipmb.frame_reader ipmb.rule_parser ipmb.rule_compiler ipmb.route_vm

namespace ipmb.match_table

/-- The code of the rule evaluates to a match. -/
def matching (frame : ipmb_frame_t) (rule : ipmb_match_rule_t) : Bool :=
  decide (ipmb_vm_evaluate rule.code frame = .ok (.IPMB_OK, true))

/-- The code of the rule evaluates to either answer. -/
def evaluates (frame : ipmb_frame_t) (rule : ipmb_match_rule_t) : Bool :=
  decide (∃ matched, ipmb_vm_evaluate rule.code frame = .ok (.IPMB_OK, matched))

def prio (rule : ipmb_match_rule_t) : Int := rule.priority.toInt

/-- The first of the rules of the highest priority, which are compared as
integers are. -/
def highest (rules : List ipmb_match_rule_t) : Option ipmb_match_rule_t :=
  @List.argmax _ _ Int.instLinearOrder.toPartialOrder.toPreorder Int.instLinearOrder.toDecidableLT prio rules

/-- What evaluation reports about the matching rules. -/
def selection (frame : ipmb_frame_t) (rules : List ipmb_match_rule_t) :
    ipmb_status_t × Option ipmb_match_result_t :=
  match highest rules with
  | none => (.IPMB_ERR_NOT_FOUND, none)
  | some rule => (.IPMB_OK, some (result_of frame rule))

/-- What becomes of the matching rules, some of which are done: each has the
array grow and its entry made, and one that moves the array does so at the end of
all references. -/
def settle_with (realloc : Allocator) (moves : Nat → Bool) (frame : ipmb_frame_t)
    (entry : ipmb_match_rule_t → Except Fault ipmb_match_result_t) :
    List ipmb_match_rule_t → List ipmb_match_rule_t →
      Except Fault (ipmb_status_t × Option ipmb_match_result_t)
  | done, [] => .ok (selection frame done)
  | done, rule :: rest =>
    if realloc done.length = false then .ok (.IPMB_ERR_ALLOC, none)
    else do
      let _ ← entry rule
      if done ≠ [] ∧ moves done.length = true then .error .useAfterFree
      else settle_with realloc moves frame entry (done ++ [rule]) rest

def settle (realloc : Allocator) (moves : Nat → Bool) (frame : ipmb_frame_t) :
    List ipmb_match_rule_t → List ipmb_match_rule_t →
      Except Fault (ipmb_status_t × Option ipmb_match_result_t) :=
  settle_with realloc moves frame (exact_entry frame)

variable {realloc : Allocator} {moves : Nat → Bool} {frame : ipmb_frame_t} {s : match_state}
  {done rest : List ipmb_match_rule_t} {rule : ipmb_match_rule_t}
  {entry : ipmb_match_rule_t → Except Fault ipmb_match_result_t}

theorem settle_cons :
    settle realloc moves frame done (rule :: rest) =
      if realloc done.length = false then .ok (.IPMB_ERR_ALLOC, none)
      else if done ≠ [] ∧ moves done.length = true then .error .useAfterFree
      else settle realloc moves frame (done ++ [rule]) rest := rfl

/-- `best` points to the result of a rule. -/
def PointsTo (s : match_state) (done : List ipmb_match_rule_t) (rule : ipmb_match_rule_t) : Prop :=
  ∃ i, s.best = some (s.block, i) ∧ done[i]? = some rule

/-- Between the rounds the results are those of the rules that matched so far,
and `best` is that of the first of the highest priority. -/
structure Valid (frame : ipmb_frame_t) (s : match_state) (done : List ipmb_match_rule_t) : Prop where
  results : s.results = done.map (result_of frame)
  empty : done = [] → s.best = none
  best : ∀ rule, highest done = some rule → PointsTo s done rule

theorem valid_init : Valid frame match_init [] := by
  refine ⟨rfl, fun _ => rfl, ?_⟩
  intro rule hmax
  cases hmax

theorem Valid.length_results (hvalid : Valid frame s done) : s.results.length = done.length := by
  rw [hvalid.results, List.length_map]

/-- Scores compare as priorities do. -/
theorem score_lt_iff (a b : ipmb_match_rule_t) :
    (result_of frame a).score < (result_of frame b).score ↔ prio a < prio b := by
  simp only [result_of, prio]
  omega

theorem deref_eq (hresults : s.results = done.map (result_of frame)) {i : Nat}
    (hi : done[i]? = some rule) : deref s (s.block, i) = .ok (result_of frame rule) := by
  rw [deref, if_pos rfl, hresults, List.getElem?_map, hi]
  rfl

theorem mem_of_highest (hmax : highest done = some rule) : rule ∈ done := List.argmax_mem hmax

theorem prio_le_of_highest {r : ipmb_match_rule_t} (hmax : highest done = some rule) (hr : r ∈ done) :
    prio r ≤ prio rule := List.le_of_mem_argmax hr hmax

/-- A rule with the highest priority so far. -/
theorem highest_of_ne_nil (hne : done ≠ []) : ∃ rule, highest done = some rule := by
  cases hmax : highest done with
  | none => exact absurd (List.argmax_eq_none.mp hmax) hne
  | some rule => exact ⟨rule, rfl⟩

/-- The comparison with the bare priority moves `best` only when the new rule
is going to win: `best` is then any result with a lower score. -/
theorem repoint_spec (hvalid : Valid frame s done) {top : ipmb_match_rule_t}
    (hmax : highest done = some top) (rule : ipmb_match_rule_t) :
    ∃ i other, repoint s rule = .ok { s with best := some (s.block, i) } ∧ done[i]? = some other ∧
      (other = top ∨ prio other ≤ prio top ∧ prio top < prio rule) := by
  obtain ⟨i, hbest, hi⟩ := hvalid.best top hmax
  rw [repoint, hbest]
  simp only [deref_eq hvalid.results hi, ok_bind]
  split_ifs with hgt
  · have hlength : 0 < done.length := List.length_pos_of_mem (mem_of_highest hmax)
    have hlast : done.length - 1 < done.length := by omega
    refine ⟨done.length - 1, done[done.length - 1], ?_, List.getElem?_eq_getElem hlast, ?_⟩
    · rw [hvalid.length_results]
      rfl
    · right
      refine ⟨prio_le_of_highest hmax (List.getElem_mem hlast), ?_⟩
      simp only [result_of, prio] at hgt ⊢
      omega
  · refine ⟨i, top, ?_, hi, .inl rfl⟩
    rw [← hbest]
    rfl

/-- The first comparison of a round reads a result that is there. -/
theorem repoint_ok (hvalid : Valid frame s done) (rule : ipmb_match_rule_t) :
    ∃ s', repoint s rule = .ok s' ∧ s'.results.length = done.length := by
  by_cases hdone : done = []
  · refine ⟨s, ?_, hvalid.length_results⟩
    rw [repoint, hvalid.empty hdone]
  · obtain ⟨top, hmax⟩ := highest_of_ne_nil hdone
    obtain ⟨i, other, hrepoint, -, -⟩ := repoint_spec hvalid hmax rule
    exact ⟨_, hrepoint, hvalid.length_results⟩

/-- The new entry becomes the best one when its rule comes before all others,
and else leaves `best` to the first of the highest priority. -/
theorem highest_concat {top : ipmb_match_rule_t} (hmax : highest done = some top)
    (rule : ipmb_match_rule_t) :
    highest (done ++ [rule]) = if prio top < prio rule then some rule else some top := by
  rw [highest, List.argmax_concat, ← highest, hmax]

/-- A round for a matching rule, by how the array grows. -/
theorem match_step_failed (hvalid : Valid frame s done) (hrealloc : realloc done.length = false) :
    match_step_with realloc moves entry s rule = .ok none := by
  obtain ⟨s', hrepoint, hcount⟩ := repoint_ok hvalid rule
  rw [match_step_with, hrepoint]
  simp only [ok_bind, hcount, hrealloc, if_pos]
  rfl

/-- A score that cannot be added ends the execution before `best` is read again. -/
theorem match_step_error (hvalid : Valid frame s done) (hrealloc : realloc done.length = true) {e : Fault}
    (hentry : entry rule = .error e) : match_step_with realloc moves entry s rule = .error e := by
  obtain ⟨s', hrepoint, hcount⟩ := repoint_ok hvalid rule
  rw [match_step_with, hrepoint]
  simp only [ok_bind, hcount, hrealloc, Bool.true_eq_false, if_false, hentry, error_bind]

theorem match_step_of_entry (hentry : entry rule = .ok (result_of frame rule)) :
    match_step_with realloc moves entry s rule = match_step realloc moves frame s rule := by
  simp only [match_step, match_step_with, exact_entry, hentry]

theorem match_step_first (moves : Nat → Bool) (rule : ipmb_match_rule_t) (hvalid : Valid frame s [])
    (hrealloc : realloc 0 = true) :
    ∃ s', match_step realloc moves frame s rule = .ok (some s') ∧ Valid frame s' [rule] := by
  have hresults : s.results = [] := hvalid.results
  rw [match_step, match_step_with, repoint, hvalid.empty rfl]
  simp only [ok_bind, exact_entry, hresults, List.length_nil, hrealloc, Bool.true_eq_false, if_false, update_best,
    hvalid.empty rfl]
  refine ⟨_, rfl, rfl, ?_, ?_⟩
  · intro hnil
    cases hnil
  · intro top hmax
    cases hmax
    exact ⟨0, rfl, rfl⟩

/-- A round that moves the array reads the best result where it was. -/
theorem match_step_moved (hvalid : Valid frame s done) (hdone : done ≠ [])
    (hrealloc : realloc done.length = true) (hmoves : moves done.length = true) :
    match_step realloc moves frame s rule = .error .useAfterFree := by
  obtain ⟨top, hmax⟩ := highest_of_ne_nil hdone
  obtain ⟨i, other, hrepoint, -, -⟩ := repoint_spec hvalid hmax rule
  rw [match_step, match_step_with, hrepoint]
  simp [hvalid.length_results, hrealloc, hmoves, exact_entry, update_best, deref]

/-- A round that leaves the array where it is keeps the invariant. -/
theorem match_step_in_place (rule : ipmb_match_rule_t) (hvalid : Valid frame s done) (hdone : done ≠ [])
    (hrealloc : realloc done.length = true) (hmoves : moves done.length = false) :
    ∃ s', match_step realloc moves frame s rule = .ok (some s') ∧ Valid frame s' (done ++ [rule]) := by
  have hcount := hvalid.length_results
  obtain ⟨top, hmax⟩ := highest_of_ne_nil hdone
  obtain ⟨i, other, hrepoint, hi, hother⟩ := repoint_spec hvalid hmax rule
  have hresults : s.results ++ [result_of frame rule] = (done ++ [rule]).map (result_of frame) := by
    rw [hvalid.results, List.map_append, List.map_singleton]
  have hlong : i < done.length := (List.getElem?_eq_some_iff.mp hi).1
  have hi' : (done ++ [rule])[i]? = some other := by
    rw [List.getElem?_append_left hlong, hi]
  have hderef := deref_eq (s := { s with
    results := s.results ++ [result_of frame rule], best := some (s.block, i) }) hresults hi'
  rw [match_step, match_step_with, hrepoint]
  simp only [ok_bind, exact_entry, hcount, hrealloc, hmoves, Bool.true_eq_false, Bool.false_eq_true, if_false,
    update_best, hderef]
  by_cases hwins : prio other < prio rule
  · -- the new result is the best one, whichever `best` was
    rw [if_pos ((score_lt_iff other rule).mpr hwins)]
    refine ⟨_, rfl, hresults, by simp, ?_⟩
    intro best hbest
    have htop : prio top < prio rule := by
      obtain rfl | ⟨-, htop⟩ := hother
      · exact hwins
      · exact htop
    rw [highest_concat hmax, if_pos htop] at hbest
    cases hbest
    refine ⟨done.length, ?_, by simp⟩
    simp [hcount]
  · rw [if_neg (fun h => hwins ((score_lt_iff other rule).mp h))]
    obtain rfl | ⟨hle, hlt⟩ := hother
    · refine ⟨_, rfl, hresults, by simp, ?_⟩
      intro best hbest
      rw [highest_concat hmax, if_neg hwins] at hbest
      cases hbest
      exact ⟨i, rfl, hi'⟩
    · exact absurd (lt_of_le_of_lt hle hlt) hwins

/-- A round that gets its memory reads `best` where it was, or keeps the
invariant. -/
theorem match_step_granted (moves : Nat → Bool) (rule : ipmb_match_rule_t) (hvalid : Valid frame s done)
    (hrealloc : realloc done.length = true) :
    ((done ≠ [] ∧ moves done.length = true) ∧ match_step realloc moves frame s rule = .error .useAfterFree) ∨
      (¬(done ≠ [] ∧ moves done.length = true) ∧
        ∃ s', match_step realloc moves frame s rule = .ok (some s') ∧ Valid frame s' (done ++ [rule])) := by
  by_cases hdone : done = []
  · subst hdone
    exact .inr ⟨fun h => h.1 rfl, match_step_first moves rule hvalid hrealloc⟩
  · cases hmoves : moves done.length with
    | true => exact .inl ⟨⟨hdone, rfl⟩, match_step_moved hvalid hdone hrealloc hmoves⟩
    | false => exact .inr ⟨fun h => Bool.noConfusion h.2, match_step_in_place rule hvalid hdone hrealloc hmoves⟩

/-- The loop skips the rules that do not match. -/
theorem match_loop_cons (rules : List ipmb_match_rule_t) :
    match_loop_with realloc moves frame entry s (rule :: rules) =
      if matching frame rule then do
        match ← match_step_with realloc moves entry s rule with
        | none => pure (.IPMB_ERR_ALLOC, none)
        | some s => match_loop_with realloc moves frame entry s rules
      else match_loop_with realloc moves frame entry s rules := by
  rw [match_loop_with, matching, ipmb_vm_evaluate_eq]
  generalize stack_machine.report (stack_machine.meaning rule.code.code frame) = answer
  obtain ⟨rc, matched⟩ := answer
  cases matched <;> cases rc <;> rfl

theorem match_loop_with_eq (hentry : ∀ rule r, entry rule = .ok r → r = result_of frame rule)
    (hvalid : Valid frame s done) (rules : List ipmb_match_rule_t) :
    match_loop_with realloc moves frame entry s rules =
      settle_with realloc moves frame entry done (rules.filter (matching frame)) := by
  induction rules generalizing s done with
  | nil =>
    rw [match_loop_with, List.filter_nil, settle_with, selection]
    by_cases hdone : done = []
    · rw [hvalid.empty hdone, hdone]
      rfl
    · obtain ⟨top, hmax⟩ := highest_of_ne_nil hdone
      obtain ⟨i, hbest, hi⟩ := hvalid.best top hmax
      rw [hbest, hmax]
      simp only [deref_eq hvalid.results hi, ok_bind]
      rfl
  | cons rule rules ih =>
    rw [match_loop_cons]
    by_cases hmatch : matching frame rule = true
    · rw [if_pos hmatch, List.filter_cons_of_pos hmatch, settle_with]
      cases hrealloc : realloc done.length with
      | false =>
        rw [match_step_failed hvalid hrealloc, if_pos rfl]
        rfl
      | true =>
        rw [if_neg (by simp)]
        cases hresult : entry rule with
        | error e => rw [match_step_error hvalid hrealloc hresult, error_bind, error_bind]
        | ok r =>
          obtain rfl := hentry rule r hresult
          rw [match_step_of_entry hresult, ok_bind]
          obtain ⟨hmoved, hstep⟩ | ⟨hstill, s', hstep, hvalid'⟩ := match_step_granted moves rule hvalid hrealloc
          · rw [hstep, if_pos hmoved, error_bind]
          · rw [hstep, if_neg hstill]
            exact ih hvalid'
    · rw [if_neg hmatch, List.filter_cons_of_neg hmatch]
      exact ih hvalid

theorem match_loop_eq (hvalid : Valid frame s done) (rules : List ipmb_match_rule_t) :
    match_loop realloc moves frame s rules =
      settle realloc moves frame done (rules.filter (matching frame)) :=
  match_loop_with_eq (fun _ _ h => (Except.ok.inj h).symm) hvalid rules

/-- Evaluation depends on the matching rules only. -/
theorem ipmb_match_table_evaluate_eq (realloc : Allocator) (moves : Nat → Bool) (table : ipmb_match_table_t)
    (frame : ipmb_frame_t) :
    ipmb_match_table_evaluate realloc moves table frame =
      settle realloc moves frame [] (table.rules.filter (matching frame)) :=
  match_loop_eq valid_init table.rules

/-- A rule without code matches no frame. -/
theorem not_matching_of_zero (frame : ipmb_frame_t) (name : List UInt8) (priority : Int32) :
    matching frame { name, priority, code := .zero } = false := rfl

/-- A rule is added behind the others, and counts when the call succeeds. -/
theorem matching_add (alloc : Allocator) (table : ipmb_match_table_t) (name : List UInt8) (priority : Int32)
    (code : ipmb_rule_bytecode_t) (frame : ipmb_frame_t) :
    (ipmb_match_table_add alloc table name priority code).2.rules.filter (matching frame) =
      table.rules.filter (matching frame) ++
        if (ipmb_match_table_add alloc table name priority code).1 = .IPMB_OK then
          [{ name := strncpy_31 name, priority, code }].filter (matching frame)
        else [] := by
  by_cases hfull : table.rules.length = table.capacity ∧ alloc 0 = false
  · rw [ipmb_match_table_add, if_pos hfull, if_neg (by simp), List.append_nil]
  · rw [ipmb_match_table_add, if_neg hfull]
    cases hclone : alloc 1 with
    | false => simp [ipmb_rule_bytecode_clone, not_matching_of_zero]
    | true => simp [ipmb_rule_bytecode_clone]

example (realloc : Allocator) (moves : Nat → Bool) (frame : ipmb_frame_t) :
    ipmb_match_table_evaluate realloc moves ipmb_match_table_init frame = .ok (.IPMB_ERR_NOT_FOUND, none) := rfl

/-- Where there are entries for the rules and the array grows in place each time, all
rules count. -/
theorem settle_with_granted (hentry : ∀ rule ∈ rest, ∃ r, entry rule = .ok r)
    (hrealloc : ∀ n < (done ++ rest).length, realloc n = true) (hmoves : ∀ n, 0 < n → moves n = false) :
    settle_with realloc moves frame entry done rest = .ok (selection frame (done ++ rest)) := by
  induction rest generalizing done with
  | nil => rw [settle_with, List.append_nil]
  | cons rule rest ih =>
    have hn : done.length < (done ++ rule :: rest).length := by
      simp
    have hstill : ¬(done ≠ [] ∧ moves done.length = true) := by
      rintro ⟨hdone, hmoved⟩
      rw [hmoves _ (List.length_pos_of_ne_nil hdone)] at hmoved
      cases hmoved
    obtain ⟨r, hr⟩ := hentry rule List.mem_cons_self
    rw [settle_with, hrealloc _ hn, if_neg (by simp), hr, ok_bind, if_neg hstill,
      ih (fun rule hrule => hentry rule (List.mem_cons_of_mem _ hrule)) (by simpa using hrealloc), List.append_assoc]
    rfl

theorem settle_granted (hrealloc : ∀ n < (done ++ rest).length, realloc n = true)
    (hmoves : ∀ n, moves n = false) :
    settle realloc moves frame done rest = .ok (selection frame (done ++ rest)) :=
  settle_with_granted (fun _ _ => ⟨_, rfl⟩) hrealloc fun n _ => hmoves n

/-- The first growth that fails ends the evaluation. -/
theorem settle_refused {n : Nat} (hfrom : done.length ≤ n) (hto : n < (done ++ rest).length)
    (hrefused : realloc n = false) (hmoves : ∀ n, moves n = false) :
    settle realloc moves frame done rest = .ok (.IPMB_ERR_ALLOC, none) := by
  induction rest generalizing done with
  | nil =>
    rw [List.append_nil] at hto
    omega
  | cons rule rest ih =>
    rw [settle_cons]
    cases hrealloc : realloc done.length with
    | false => rw [if_pos rfl]
    | true =>
      have hne : done.length ≠ n := by
        rintro rfl
        rw [hrefused] at hrealloc
        cases hrealloc
      rw [if_neg (by simp), if_neg (by simp [hmoves])]
      apply ih
      · rw [List.length_append, List.length_singleton]
        omega
      · rw [List.append_assoc]
        exact hto

/-- Only the second rule or one behind it can find the array elsewhere. -/
theorem settle_error {e : Fault} (h : settle realloc moves frame done rest = .error e) :
    e = .useAfterFree ∧ 2 ≤ (done ++ rest).length ∧ ∃ n, moves n = true := by
  induction rest generalizing done with
  | nil => cases h
  | cons rule rest ih =>
    rw [settle_cons] at h
    by_cases hrealloc : realloc done.length = false
    · rw [if_pos hrealloc] at h
      cases h
    rw [if_neg hrealloc] at h
    by_cases hmoved : done ≠ [] ∧ moves done.length = true
    · rw [if_pos hmoved] at h
      cases h
      have hlength := List.length_pos_of_ne_nil hmoved.1
      refine ⟨rfl, ?_, _, hmoved.2⟩
      rw [List.length_append, List.length_cons]
      omega
    · rw [if_neg hmoved] at h
      have hrest := ih h
      rwa [List.append_assoc] at hrest

theorem mem_of_selection {r : ipmb_match_result_t} (h : (selection frame done).2 = some r) :
    ∃ rule ∈ done, r = result_of frame rule := by
  rw [selection] at h
  cases hmax : highest done with
  | none =>
    rw [hmax] at h
    cases h
  | some rule =>
    rw [hmax] at h
    cases h
    exact ⟨rule, mem_of_highest hmax, rfl⟩

/-- What is reported is the selection among all rules, unless a growth fails. -/
theorem settle_with_cases {r : ipmb_status_t × Option ipmb_match_result_t}
    (h : settle_with realloc moves frame entry done rest = .ok r) :
    r = (.IPMB_ERR_ALLOC, none) ∧ (∃ n, realloc n = false) ∨ selection frame (done ++ rest) = r := by
  induction rest generalizing done with
  | nil =>
    rw [List.append_nil]
    exact .inr (Except.ok.inj h)
  | cons rule rest ih =>
    rw [settle_with] at h
    by_cases hrealloc : realloc done.length = false
    · rw [if_pos hrealloc] at h
      exact .inl ⟨(Except.ok.inj h).symm, _, hrealloc⟩
    · rw [if_neg hrealloc] at h
      obtain ⟨_, _, h⟩ := bind_eq_ok_iff.mp h
      by_cases hmoved : done ≠ [] ∧ moves done.length = true
      · rw [if_pos hmoved] at h
        cases h
      · rw [if_neg hmoved] at h
        have hrest := ih h
        rwa [List.append_assoc] at hrest

theorem settle_selects {rc : ipmb_status_t} {r : ipmb_match_result_t}
    (h : settle_with realloc moves frame entry done rest = .ok (rc, some r)) :
    selection frame (done ++ rest) = (rc, some r) := by
  obtain ⟨hrefused, -⟩ | hselects := settle_with_cases h
  · cases hrefused
  · exact hselects

/-- All goes through exactly when each rule whose growth is granted, with those before,
has an entry, and no such growth after the first moves the array. -/
theorem settle_with_ok_iff (realloc : Allocator) (moves : Nat → Bool) (frame : ipmb_frame_t)
    (entry : ipmb_match_rule_t → Except Fault ipmb_match_result_t) (done rest : List ipmb_match_rule_t) :
    (∃ r, settle_with realloc moves frame entry done rest = .ok r) ↔
      ∀ i rule, rest[i]? = some rule → (∀ n, done.length ≤ n → n ≤ done.length + i → realloc n = true) →
        (∃ r, entry rule = .ok r) ∧ (0 < done.length + i → moves (done.length + i) = false) := by
  induction rest generalizing done with
  | nil =>
    refine iff_of_true ⟨_, rfl⟩ ?_
    intro i rule hrule
    cases hrule
  | cons rule rest ih =>
    have hnext : (done ++ [rule]).length = done.length + 1 := by
      simp
    rw [settle_with]
    cases hrealloc : realloc done.length with
    | false =>
      refine iff_of_true ⟨_, if_pos rfl⟩ ?_
      intro i r _ hgranted
      rw [hgranted done.length (Nat.le_refl _) (by omega)] at hrealloc
      cases hrealloc
    | true =>
      have hfirst : ∀ n, done.length ≤ n → n ≤ done.length + 0 → realloc n = true := by
        intro n hfrom hto
        rw [Nat.le_antisymm hto hfrom]
        exact hrealloc
      rw [if_neg (by simp)]
      cases hentry : entry rule with
      | error e =>
        refine iff_of_false ?_ fun hall => ?_
        · rintro ⟨r, hr⟩
          rw [error_bind] at hr
          cases hr
        · obtain ⟨⟨r, hr⟩, -⟩ := hall 0 rule rfl hfirst
          rw [hentry] at hr
          cases hr
      | ok r =>
        rw [ok_bind]
        by_cases hmoved : done ≠ [] ∧ moves done.length = true
        · refine iff_of_false ?_ fun hall => ?_
          · rintro ⟨r', hr'⟩
            rw [if_pos hmoved] at hr'
            cases hr'
          · have hstill := (hall 0 rule rfl hfirst).2 (List.length_pos_of_ne_nil hmoved.1)
            rw [Nat.add_zero, hmoved.2] at hstill
            cases hstill
        · rw [if_neg hmoved, ih, hnext]
          constructor
          · intro hall i r' hr' hgranted
            cases i with
            | zero =>
              cases hr'
              refine ⟨⟨r, hentry⟩, fun hpos => ?_⟩
              exact Bool.eq_false_iff.mpr fun hmoves => hmoved ⟨List.ne_nil_of_length_pos hpos, hmoves⟩
            | succ i =>
              have hstep := hall i r' hr' fun n hfrom hto => hgranted n (by omega) (by omega)
              rwa [Nat.add_right_comm] at hstep
          · intro hall i r' hr' hgranted
            rw [Nat.add_right_comm]
            refine hall (i + 1) r' hr' fun n hfrom hto => ?_
            obtain rfl | hlt := Nat.eq_or_lt_of_le hfrom
            · exact hrealloc
            · exact hgranted n hlt (by omega)

/-- The references hold out exactly when no growth after the first moves the
array, unless an allocation failed before. -/
theorem settle_ok_iff (realloc : Allocator) (moves : Nat → Bool) (frame : ipmb_frame_t)
    (done rest : List ipmb_match_rule_t) :
    (∃ r, settle realloc moves frame done rest = .ok r) ↔
      ∀ n, done.length ≤ n → 0 < n → n < (done ++ rest).length → moves n = true →
        ∃ m, done.length ≤ m ∧ m ≤ n ∧ realloc m = false := by
  rw [settle, settle_with_ok_iff, List.length_append]
  constructor
  · intro hall n hfrom hpos hto hmoves
    by_contra hgranted
    push Not at hgranted
    have hindex : done.length + (n - done.length) = n := by omega
    obtain ⟨-, hstill⟩ := hall (n - done.length) _ (List.getElem?_eq_getElem (by omega)) fun m hm hmn =>
      Bool.eq_true_of_not_eq_false (hgranted m hm (by omega))
    rw [hindex, hmoves] at hstill
    cases hstill hpos
  · intro hall i rule hrule hgranted
    have hi := (List.getElem?_eq_some_iff.mp hrule).1
    refine ⟨⟨_, rfl⟩, fun hpos => Bool.eq_false_iff.mpr fun hmoves => ?_⟩
    obtain ⟨m, hm, hmn, hrefused⟩ := hall (done.length + i) (by omega) hpos (by omega) hmoves
    rw [hgranted m hm hmn] at hrefused
    cases hrefused

theorem matching_iff :
    matching frame rule = true ↔ ipmb_vm_evaluate rule.code frame = .ok (.IPMB_OK, true) := by
  rw [matching, decide_eq_true_eq]

/-- A rule whose code fails to evaluate does not match. -/
theorem filter_evaluates (rules : List ipmb_match_rule_t) :
    (rules.filter (evaluates frame)).filter (matching frame) = rules.filter (matching frame) := by
  rw [List.filter_filter]
  apply List.filter_congr
  intro rule _
  cases hmatch : matching frame rule with
  | false => rfl
  | true => simp [evaluates, matching_iff.mp hmatch]

/-- The array stays where it is at every growth, so that `best` designates an
entry of the results. -/
def still : Nat → Bool := fun _ => false

/-- What the selection is, in the table as a whole. -/
theorem selection_spec {table : ipmb_match_table_t}
    (hsome : ∃ rule ∈ table.rules, matching frame rule = true) :
    ∃ before rule after, table.rules = before ++ rule :: after ∧ matching frame rule = true ∧
      (∀ r ∈ before, matching frame r = true → r.priority < rule.priority) ∧
      (∀ r ∈ after, matching frame r = true → r.priority ≤ rule.priority) ∧
      selection frame (table.rules.filter (matching frame)) =
        (.IPMB_OK, some (result_of frame rule)) := by
  obtain ⟨rule, hrule, hmatch⟩ := hsome
  have hne : table.rules.filter (matching frame) ≠ [] :=
    List.ne_nil_of_mem (List.mem_filter.mpr ⟨hrule, hmatch⟩)
  obtain ⟨top, hmax⟩ := highest_of_ne_nil hne
  obtain ⟨before, after, hsplit, htop, hbefore, hafter⟩ := argmax_filter_split hmax
  refine ⟨before, top, after, hsplit, htop, ?_, ?_, by rw [selection, hmax]⟩
  · intro r hr hmatch
    exact Int32.lt_iff_toInt_lt.mpr (hbefore r hr hmatch)
  · intro r hr hmatch
    exact Int32.le_iff_toInt_le.mpr (hafter r hr hmatch)

/-- Evaluation finds nothing exactly when no rule matches. Otherwise, unless
the results cannot be stored, it reports the first of the matching rules of the
highest priority. Rules that fail to evaluate make no difference. -/
theorem ipmb_match_table_selection (realloc : Allocator) (table : ipmb_match_table_t)
    (frame : ipmb_frame_t) :
    (ipmb_match_table_evaluate realloc still table frame = .ok (.IPMB_ERR_NOT_FOUND, none) ↔
      ∀ rule ∈ table.rules, ipmb_vm_evaluate rule.code frame ≠ .ok (.IPMB_OK, true)) ∧
    ((∃ rule ∈ table.rules, ipmb_vm_evaluate rule.code frame = .ok (.IPMB_OK, true)) →
      ∃ before rule after, table.rules = before ++ rule :: after ∧
        ipmb_vm_evaluate rule.code frame = .ok (.IPMB_OK, true) ∧
        (∀ r ∈ before, ipmb_vm_evaluate r.code frame = .ok (.IPMB_OK, true) → r.priority < rule.priority) ∧
        (∀ r ∈ after, ipmb_vm_evaluate r.code frame = .ok (.IPMB_OK, true) → r.priority ≤ rule.priority) ∧
        ipmb_match_table_evaluate realloc still table frame =
          if ∀ n < table.rules.countP (matching frame), realloc n = true then
            .ok (.IPMB_OK, some
              { name := rule.name.take 31
                priority := rule.priority
                score := rule.priority.toInt + frame.priority.toNat })
          else .ok (.IPMB_ERR_ALLOC, none)) ∧
    ipmb_match_table_evaluate realloc still { table with rules := table.rules.filter (evaluates frame) } frame =
      ipmb_match_table_evaluate realloc still table frame := by
  have hcount : table.rules.countP (matching frame) = (table.rules.filter (matching frame)).length :=
    List.countP_eq_length_filter
  have hsettle : settle realloc still frame [] (table.rules.filter (matching frame)) =
      if ∀ n < table.rules.countP (matching frame), realloc n = true then
        .ok (selection frame (table.rules.filter (matching frame)))
      else .ok (.IPMB_ERR_ALLOC, none) := by
    rw [hcount]
    split_ifs with hall
    · exact settle_granted hall fun _ => rfl
    · push Not at hall
      obtain ⟨n, hn, hrefused⟩ := hall
      exact settle_refused (Nat.zero_le n) hn (Bool.eq_false_iff.mpr hrefused) fun _ => rfl
  simp only [ne_eq, ← matching_iff, ipmb_match_table_evaluate_eq]
  rw [filter_evaluates, hsettle]
  refine ⟨?_, ?_, rfl⟩
  · by_cases hsome : ∃ rule ∈ table.rules, matching frame rule = true
    · obtain ⟨before, rule, after, -, -, -, -, hselection⟩ := selection_spec hsome
      rw [hselection]
      refine iff_of_false ?_ ?_
      · split_ifs <;> simp
      · push Not
        exact hsome
    · push Not at hsome
      have hnone : table.rules.filter (matching frame) = [] := List.filter_eq_nil_iff.mpr hsome
      rw [hcount, hnone]
      refine iff_of_true ?_ hsome
      rw [if_pos (by simp)]
      rfl
  · intro hsome
    obtain ⟨before, rule, after, hsplit, hmatch, hbefore, hafter, hselection⟩ := selection_spec hsome
    rw [hselection]
    exact ⟨before, rule, after, hsplit, hmatch, hbefore, hafter, rfl⟩

/-- Evaluation reads no result array but the current one, and what it reports
is the result of a rule that matched in this call. -/
def ReportsOwn (realloc : Allocator) (moves : Nat → Bool) (table : ipmb_match_table_t)
    (frame : ipmb_frame_t) : Prop :=
  ∃ rc out, ipmb_match_table_evaluate realloc moves table frame = .ok (rc, out) ∧
    ∀ r, out = some r → ∃ rule ∈ table.rules, matching frame rule = true ∧ r = result_of frame rule

/-- The results array must not move once it holds a result, unless the
evaluation has given up before. -/
theorem ipmb_match_table_reports_own_iff (realloc : Allocator) (moves : Nat → Bool)
    (table : ipmb_match_table_t) (frame : ipmb_frame_t) :
    ReportsOwn realloc moves table frame ↔
      ∀ n, 0 < n → n < table.rules.countP (matching frame) → moves n = true →
        ∃ m ≤ n, realloc m = false := by
  have hiff := settle_ok_iff realloc moves frame [] (table.rules.filter (matching frame))
  rw [List.countP_eq_length_filter]
  simp only [List.nil_append, List.length_nil, Nat.zero_le, true_and, forall_true_left] at hiff
  rw [← hiff, ReportsOwn, ipmb_match_table_evaluate_eq]
  constructor
  · intro ⟨rc, out, hok, _⟩
    exact ⟨_, hok⟩
  · intro ⟨(rc, out), hok⟩
    refine ⟨rc, out, hok, ?_⟩
    rintro r rfl
    obtain ⟨rule, hmem, hr⟩ := mem_of_selection (by rw [settle_selects hok])
    obtain ⟨hrule, hmatch⟩ := List.mem_filter.mp hmem
    exact ⟨rule, hrule, hmatch, hr⟩

/-- A table with two rules that match every frame. -/
def two_rules : ipmb_match_table_t :=
  let code : ipmb_rule_bytecode_t := { code := [1, 1, 0, 0, 0, 13] }
  { rules := [{ name := [0x61], priority := 1, code }, { name := [0x62], priority := 2, code }]
    capacity := 4 }

/-- The second rule that matches moves the results away under `best`. -/
theorem ipmb_match_table_reads_moved :
    ¬ ReportsOwn Allocator.succeeds (fun n => n == 1) two_rules
      { frame_type := 0, frame_flags := 0, source_addr := 0, dest_addr := 0, priority := 0, ttl := 0
        payload := [], payload_len := 0, crc := 0 } := by
  intro ⟨rc, out, hok, _⟩
  have hfault : ipmb_match_table_evaluate Allocator.succeeds (fun n => n == 1) two_rules
      { frame_type := 0, frame_flags := 0, source_addr := 0, dest_addr := 0, priority := 0, ttl := 0
        payload := [], payload_len := 0, crc := 0 } = .error .useAfterFree := by
    decide
  rw [hfault] at hok
  cases hok

end ipmb.match_table
