import Mathlib.Data.List.Basic

namespace transition

/-- What a machine does in a state: it goes on, ends with a result, or is
stuck. -/
abbrev Machine (σ β : Type) := σ → Option (σ ⊕ β)

variable {σ β : Type} {step : Machine σ β}

/-- The result of a run of so many steps, if it reaches one. -/
def run (step : Machine σ β) : Nat → σ → Option β
  | 0, _ => none
  | fuel + 1, s =>
    match step s with
    | none => none
    | some (.inr b) => some b
    | some (.inl s) => run step fuel s

/-- The states that a run comes through. -/
def visited (step : Machine σ β) : Nat → σ → List σ
  | 0, s => [s]
  | fuel + 1, s =>
    match step s with
    | some (.inl s') => s :: visited step fuel s'
    | _ => [s]

/-- The steps that a run takes. One that is stuck is counted too. -/
def rounds (step : Machine σ β) : Nat → σ → Nat
  | 0, _ => 0
  | fuel + 1, s =>
    match step s with
    | some (.inl s) => rounds step fuel s + 1
    | _ => 1

/-- A size that every step lowers, with nothing left to do at zero. -/
structure Lowers (step : Machine σ β) (size : σ → Nat) : Prop where
  stuck : ∀ s, size s = 0 → step s = none
  lt : ∀ s s', step s = some (.inl s') → size s' < size s

section equations
variable {fuel : Nat} {s s' : σ}

theorem run_of_next (h : step s = some (.inl s')) : run step (fuel + 1) s = run step fuel s' := by
  rw [run, h]

theorem visited_of_next (h : step s = some (.inl s')) :
    visited step (fuel + 1) s = s :: visited step fuel s' := by
  rw [visited, h]

theorem rounds_of_next (h : step s = some (.inl s')) : rounds step (fuel + 1) s = rounds step fuel s' + 1 := by
  rw [rounds, h]

theorem rounds_of_end {b : β} (h : step s = some (.inr b)) : rounds step (fuel + 1) s = 1 := by
  rw [rounds, h]

end equations

/-- The start is visited first. -/
theorem mem_visited_self (fuel : Nat) (s : σ) : s ∈ visited step fuel s := by
  cases fuel with
  | zero => exact List.mem_singleton_self s
  | succ fuel =>
    rw [visited]
    split
    · exact List.mem_cons_self
    · exact List.mem_singleton_self s

/-- What a run returns does not depend on the bound, once that is enough. -/
theorem Lowers.run_eq {size : σ → Nat} (h : Lowers step size) {m n : Nat} {s : σ} (hm : size s ≤ m)
    (hn : size s ≤ n) : run step m s = run step n s := by
  induction m generalizing n s with
  | zero =>
    have hstuck := h.stuck s (by omega)
    cases n with
    | zero => rfl
    | succ n => rw [run, run, hstuck]
  | succ m ih =>
    cases n with
    | zero =>
      have hstuck := h.stuck s (by omega)
      rw [run, run, hstuck]
    | succ n =>
      rw [run, run]
      split
      · rfl
      · rfl
      · rename_i s' hs'
        have hlt := h.lt s s' hs'
        exact ih (by omega) (by omega)

/-- With a bound that is enough the states visited are closed under steps. -/
theorem Lowers.mem_visited_next {size : σ → Nat} (h : Lowers step size) {fuel : Nat} {start s s' : σ}
    (hfuel : size start ≤ fuel) (hs : s ∈ visited step fuel start) (hnext : step s = some (.inl s')) :
    s' ∈ visited step fuel start := by
  induction fuel generalizing start with
  | zero =>
    obtain rfl := List.mem_singleton.mp hs
    rw [h.stuck s (by omega)] at hnext
    cases hnext
  | succ fuel ih =>
    cases hstart : step start with
    | none =>
      rw [visited, hstart] at hs
      obtain rfl := List.mem_singleton.mp hs
      rw [hstart] at hnext
      cases hnext
    | some r =>
      cases r with
      | inr b =>
        rw [visited, hstart] at hs
        obtain rfl := List.mem_singleton.mp hs
        rw [hstart] at hnext
        cases hnext
      | inl mid =>
        have hlt := h.lt start mid hstart
        rw [visited_of_next hstart] at hs ⊢
        obtain rfl | hs := List.mem_cons.mp hs
        · rw [hstart] at hnext
          cases hnext
          exact List.mem_cons_of_mem _ (mem_visited_self fuel _)
        · exact List.mem_cons_of_mem _ (ih (by omega) hs)

section restriction
variable {restricted : Machine σ β} {fuel : Nat} {s : σ}

/-- A machine that does the same in all states visited returns the same. -/
theorem run_congr (h : ∀ t ∈ visited step fuel s, restricted t = step t) :
    run restricted fuel s = run step fuel s := by
  induction fuel generalizing s with
  | zero => rfl
  | succ fuel ih =>
    rw [run, run, h s (mem_visited_self _ s)]
    split
    · rfl
    · rfl
    · rename_i s' hs'
      refine ih fun t ht => h t ?_
      rw [visited_of_next hs']
      exact List.mem_cons_of_mem _ ht

/-- A machine that is stuck in a state the other one visits, and does the same
before, returns nothing. -/
theorem run_eq_none_of_stuck (h : ∀ t, restricted t = step t ∨ restricted t = none) {t : σ}
    (ht : t ∈ visited step fuel s) (hstuck : restricted t = none) : run restricted fuel s = none := by
  induction fuel generalizing s with
  | zero => rfl
  | succ fuel ih =>
    obtain hsame | hnone := h s
    · cases hstep : step s with
      | none => rw [run, hsame, hstep]
      | some r =>
        cases r with
        | inl s' =>
          rw [visited_of_next hstep] at ht
          obtain rfl | ht := List.mem_cons.mp ht
          · rw [run, hstuck]
          · rw [run_of_next (hsame.trans hstep)]
            exact ih ht
        | inr b =>
          rw [visited, hstep] at ht
          obtain rfl := List.mem_singleton.mp ht
          rw [run, hstuck]
    · rw [run, hnone]

end restriction

end transition
