import Mathlib.Data.List.Basic

namespace occurs

variable {α : Type} {Q : List α → α → Prop}

/-- Some element of a list has a property together with what stands before it. -/
def Occurs (Q : List α → α → Prop) (l : List α) : Prop :=
  ∃ before a after, l = before ++ a :: after ∧ Q before a

theorem occurs_nil : ¬Occurs Q [] := by
  intro ⟨before, a, after, hl, _⟩
  simp at hl

/-- The last element has the others before it. -/
theorem occurs_snoc {l : List α} {a : α} : Occurs Q (l ++ [a]) ↔ Occurs Q l ∨ Q l a := by
  constructor
  · intro ⟨before, x, after, hl, hx⟩
    obtain rfl | ⟨after', y, rfl⟩ := List.eq_nil_or_concat after
    · obtain ⟨rfl, ha⟩ := List.append_inj' hl rfl
      cases ha
      exact .inr hx
    · rw [List.concat_eq_append, ← List.cons_append, ← List.append_assoc] at hl
      obtain ⟨rfl, _⟩ := List.append_inj' hl rfl
      exact .inl ⟨before, x, after', rfl, hx⟩
  · intro hor
    obtain ⟨before, x, after, rfl, hx⟩ | hx := hor
    · exact ⟨before, x, after ++ [a], by simp, hx⟩
    · exact ⟨l, a, [], rfl, hx⟩

theorem occurs_or (Q Q' : List α → α → Prop) (l : List α) :
    Occurs (fun before a => Q before a ∨ Q' before a) l ↔ Occurs Q l ∨ Occurs Q' l := by
  constructor
  · intro ⟨before, a, after, hl, hor⟩
    exact hor.imp (fun h => ⟨before, a, after, hl, h⟩) fun h => ⟨before, a, after, hl, h⟩
  · intro hor
    obtain ⟨before, a, after, hl, h⟩ | ⟨before, a, after, hl, h⟩ := hor
    · exact ⟨before, a, after, hl, .inl h⟩
    · exact ⟨before, a, after, hl, .inr h⟩

end occurs
