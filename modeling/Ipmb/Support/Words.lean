import Mathlib.Data.List.Basic

namespace words

variable {α : Type} {sep : α → Bool}

/-- The maximal runs without separators. -/
def runs (sep : α → Bool) (text : List α) : List (List α) := (text.splitOnP sep).filter fun w => !w.isEmpty

@[simp] theorem runs_nil (sep : α → Bool) : runs sep [] = [] := by
  simp [runs]

theorem runs_cons_sep {c : α} (hc : sep c = true) (text : List α) : runs sep (c :: text) = runs sep text := by
  simp [runs, List.splitOnP_cons_eq_if_splitOnPPrepend, hc]

/-- Separators before a text do not matter. -/
theorem runs_append_seps {gap : List α} (hgap : ∀ c ∈ gap, sep c = true) (text : List α) :
    runs sep (gap ++ text) = runs sep text := by
  induction gap with
  | nil => rfl
  | cons c gap ih =>
    rw [List.cons_append, runs_cons_sep (hgap c List.mem_cons_self),
      ih fun c hc => hgap c (List.mem_cons_of_mem _ hc)]

/-- A run ends where the text does or at a separator. -/
theorem runs_append_run {w rest : List α} (hw : w ≠ []) (hchars : ∀ c ∈ w, sep c = false)
    (hrest : ∀ c tail, rest = c :: tail → sep c = true) : runs sep (w ++ rest) = w :: runs sep rest := by
  cases rest with
  | nil => simp [runs, List.splitOnP_eq_singleton hchars, hw]
  | cons c tail =>
    have hc := hrest c tail rfl
    rw [runs_cons_sep hc]
    simp [runs, List.splitOnP_append_cons_of_forall_mem hchars c hc, hw]

end words
