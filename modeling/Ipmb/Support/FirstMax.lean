import Mathlib.Data.List.MinMax

namespace first_max

variable {α β : Type} [LinearOrder β] {f : α → β}

/-- The first maximum of a list: what stands before it is smaller, what stands
after it is not larger. -/
theorem argmax_split {l : List α} {m : α} (hmax : l.argmax f = some m) :
    ∃ before after, l = before ++ m :: after ∧ (∀ a ∈ before, f a < f m) ∧ ∀ a ∈ after, f a ≤ f m := by
  induction l using List.reverseRecOn generalizing m with
  | nil => cases hmax
  | append_singleton l a ih =>
    rw [List.argmax_concat] at hmax
    cases hfront : l.argmax f with
    | none =>
      rw [hfront] at hmax
      cases hmax
      rw [List.argmax_eq_none.mp hfront]
      exact ⟨[], [], rfl, by simp, by simp⟩
    | some c =>
      rw [hfront] at hmax
      by_cases hlt : f c < f a
      · -- the new last element is larger than all before it
        simp only [if_pos hlt] at hmax
        cases hmax
        refine ⟨l, [], rfl, ?_, by simp⟩
        intro b hb
        exact lt_of_le_of_lt (List.le_of_mem_argmax hb hfront) hlt
      · simp only [if_neg hlt] at hmax
        cases hmax
        obtain ⟨before, after, hsplit, hbefore, hafter⟩ := ih hfront
        refine ⟨before, after ++ [a], by simp [hsplit], hbefore, ?_⟩
        intro b hb
        obtain hb | hb := List.mem_append.mp hb
        · exact hafter b hb
        · rw [List.mem_singleton.mp hb]
          exact not_lt.mp hlt

/-- The first maximum among the elements with a property, where it stands in
the whole list. -/
theorem argmax_filter_split {p : α → Bool} {l : List α} {m : α} (hmax : (l.filter p).argmax f = some m) :
    ∃ before after, l = before ++ m :: after ∧ p m = true ∧
      (∀ a ∈ before, p a = true → f a < f m) ∧ ∀ a ∈ after, p a = true → f a ≤ f m := by
  obtain ⟨before, after, hsplit, hbefore, hafter⟩ := argmax_split hmax
  obtain ⟨front, back, rfl, hfront, hback⟩ := List.filter_eq_append_iff.mp hsplit
  obtain ⟨skipped, rest, rfl, hskipped, hm, hrest⟩ := List.filter_eq_cons_iff.mp hback
  refine ⟨front ++ skipped, rest, by simp, hm, ?_, ?_⟩
  · intro a ha hp
    obtain ha | ha := List.mem_append.mp ha
    · apply hbefore
      rw [← hfront]
      exact List.mem_filter.mpr ⟨ha, hp⟩
    · exact absurd hp (hskipped a ha)
  · intro a ha hp
    apply hafter
    rw [← hrest]
    exact List.mem_filter.mpr ⟨ha, hp⟩

end first_max
