import Mathlib.Data.List.Basic

namespace run_length

variable {α : Type}

/-- The sequence that runs stand for. -/
def expand (rs : List (Nat × α)) : List α := rs.flatMap fun r => List.replicate r.1 r.2

@[simp] theorem expand_nil : expand ([] : List (Nat × α)) = [] := rfl

@[simp] theorem expand_cons (r : Nat × α) (rs : List (Nat × α)) :
    expand (r :: rs) = List.replicate r.1 r.2 ++ expand rs := by
  simp [expand]

variable [DecidableEq α]

/-- How often a sequence repeats a value before it changes or a limit is
reached. -/
def leading (a : α) : Nat → List α → Nat
  | 0, _ => 0
  | _ + 1, [] => 0
  | limit + 1, x :: xs => if x = a then leading a limit xs + 1 else 0

@[simp] theorem leading_nil (a : α) (limit : Nat) : leading a limit [] = 0 := by
  cases limit <;> rfl

theorem leading_le (a : α) (limit : Nat) (xs : List α) : leading a limit xs ≤ limit := by
  induction limit generalizing xs with
  | zero => exact Nat.le_refl _
  | succ limit ih =>
    cases xs with
    | nil => exact Nat.zero_le _
    | cons x xs =>
      have htail := ih xs
      rw [leading]
      split <;> omega

/-- The repetitions, and what follows them. -/
theorem replicate_leading_append (a : α) (limit : Nat) (xs : List α) :
    List.replicate (leading a limit xs) a ++ xs.drop (leading a limit xs) = xs := by
  induction limit generalizing xs with
  | zero => rfl
  | succ limit ih =>
    cases xs with
    | nil => rfl
    | cons x xs =>
      rw [leading]
      split
      · rename_i hx
        subst hx
        rw [List.replicate_succ, List.cons_append, List.drop_succ_cons, ih]
      · rfl

/-- The runs of a sequence, each as long as it can be with at most `limit`
repetitions of its first element. -/
def runs (limit : Nat) : List α → List (Nat × α)
  | [] => []
  | x :: xs => (leading x limit xs + 1, x) :: runs limit (xs.drop (leading x limit xs))
termination_by xs => xs.length
decreasing_by
  rw [List.length_drop, List.length_cons]
  omega

@[simp] theorem runs_nil (limit : Nat) : runs limit ([] : List α) = [] := by
  rw [runs]

theorem runs_cons (limit : Nat) (x : α) (xs : List α) :
    runs limit (x :: xs) =
      (leading x limit xs + 1, x) :: runs limit (xs.drop (leading x limit xs)) := by
  rw [runs]

/-- The runs of a sequence stand for it. -/
theorem expand_runs (limit : Nat) (xs : List α) : expand (runs limit xs) = xs := by
  fun_induction runs limit xs with
  | case1 => rfl
  | case2 x xs ih =>
    rw [expand_cons, ih, List.replicate_succ, List.cons_append, replicate_leading_append]

/-- A run is at least its first element and at most `limit` repetitions more. -/
theorem mem_runs {limit : Nat} {xs : List α} {r : Nat × α} (h : r ∈ runs limit xs) :
    0 < r.1 ∧ r.1 ≤ limit + 1 := by
  fun_induction runs limit xs with
  | case1 => simp at h
  | case2 x xs ih =>
    obtain rfl | h := List.mem_cons.mp h
    · exact ⟨Nat.succ_pos _, Nat.succ_le_succ (leading_le x limit xs)⟩
    · exact ih h

/-- There are no more runs than elements. -/
theorem length_runs_le (limit : Nat) (xs : List α) : (runs limit xs).length ≤ xs.length := by
  fun_induction runs limit xs with
  | case1 => exact Nat.le_refl _
  | case2 x xs ih =>
    rw [List.length_drop] at ih
    rw [List.length_cons, List.length_cons]
    omega

/-- A higher limit counts at most one repetition more. -/
theorem leading_succ (a : α) (limit : Nat) (xs : List α) :
    leading a limit xs ≤ leading a (limit + 1) xs ∧ leading a (limit + 1) xs ≤ leading a limit xs + 1 := by
  induction limit generalizing xs with
  | zero =>
    have hle := leading_le a 1 xs
    exact ⟨Nat.zero_le _, hle⟩
  | succ limit ih =>
    cases xs with
    | nil => simp
    | cons x xs =>
      obtain ⟨hlower, hupper⟩ := ih xs
      rw [leading, leading]
      split <;> omega

/-- Without its first element a sequence has no more runs. -/
theorem length_runs_tail_le (limit : Nat) (x : α) (xs : List α) :
    (runs limit xs).length ≤ (runs limit (x :: xs)).length := by
  induction hn : xs.length using Nat.strongRecOn generalizing x xs with
  | ind n ih =>
    rw [runs_cons, List.length_cons]
    cases limit with
    | zero => exact Nat.le_succ _
    | succ limit =>
      cases xs with
      | nil => simp
      | cons y ys =>
        rw [leading]
        split
        · rename_i hy
          subst hy
          rw [runs_cons, List.length_cons, List.drop_succ_cons]
          -- the first run of the shorter sequence ends where that of the longer one does, or one later
          obtain ⟨hlower, hupper⟩ := leading_succ y limit ys
          obtain hsame | hmore : leading y (limit + 1) ys = leading y limit ys ∨
              leading y (limit + 1) ys = leading y limit ys + 1 := by omega
          · exact Nat.le_of_eq (by rw [hsame])
          · rw [hmore]
            cases hrest : ys.drop (leading y limit ys) with
            | nil =>
              rw [List.drop_eq_nil_iff] at hrest
              exact Nat.le_of_eq (by rw [List.drop_eq_nil_of_le (by omega)])
            | cons z zs =>
              have hdrop : ys.drop (leading y limit ys + 1) = zs := by
                rw [← List.drop_drop, hrest, List.drop_succ_cons, List.drop_zero]
              rw [hdrop]
              have hshort : zs.length < n := by
                have hlength := congrArg List.length hrest
                rw [List.length_drop, List.length_cons] at hlength
                rw [List.length_cons] at hn
                omega
              exact Nat.succ_le_succ (ih _ hshort z zs rfl)
        · rw [List.drop_zero]
          exact Nat.le_succ _

theorem length_runs_drop_le (limit n : Nat) (xs : List α) :
    (runs limit (xs.drop n)).length ≤ (runs limit xs).length := by
  induction n generalizing xs with
  | zero => exact Nat.le_refl _
  | succ n ih =>
    cases xs with
    | nil => simp
    | cons x xs => exact Nat.le_trans (ih xs) (length_runs_tail_le limit x xs)

theorem le_leading_replicate_append (a : α) {limit n : Nat} (h : n ≤ limit) (xs : List α) :
    n ≤ leading a limit (List.replicate n a ++ xs) := by
  induction n generalizing limit with
  | zero => exact Nat.zero_le _
  | succ n ih =>
    cases limit with
    | zero => omega
    | succ limit =>
      rw [List.replicate_succ, List.cons_append, leading, if_pos rfl]
      exact Nat.succ_le_succ (ih (by omega))

/-- A repetition that one run has room for adds at most one run. -/
theorem length_runs_replicate_append_le (a : α) {limit n : Nat} (h : n ≤ limit + 1) (xs : List α) :
    (runs limit (List.replicate n a ++ xs)).length ≤ (runs limit xs).length + 1 := by
  cases n with
  | zero => exact Nat.le_succ _
  | succ n =>
    have hleading := le_leading_replicate_append a (Nat.le_of_succ_le_succ h) xs
    rw [List.replicate_succ, List.cons_append, runs_cons, List.length_cons, List.drop_append,
      List.drop_eq_nil_of_le (by rw [List.length_replicate]; exact hleading), List.nil_append]
    exact Nat.succ_le_succ (length_runs_drop_le limit _ xs)

/-- No other runs within the limit that stand for a sequence are fewer than
its own. -/
theorem length_runs_expand_le {limit : Nat} {rs : List (Nat × α)} (h : ∀ r ∈ rs, r.1 ≤ limit + 1) :
    (runs limit (expand rs)).length ≤ rs.length := by
  induction rs with
  | nil => simp
  | cons r rs ih =>
    have hrest := ih fun r hr => h r (List.mem_cons_of_mem _ hr)
    have hfirst := length_runs_replicate_append_le r.2 (h r List.mem_cons_self) (expand rs)
    rw [expand_cons, List.length_cons]
    omega

end run_length
