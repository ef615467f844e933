import Mathlib.Data.List.Basic

namespace bounded_stack

variable {α : Type} {size : Nat}

/-- The values an array stack holds, the last one pushed first. -/
def contents (slots : Vector α size) (sp : Nat) : List α := (slots.toList.take sp).reverse

@[simp] theorem contents_zero (slots : Vector α size) : contents slots 0 = [] := by
  simp [contents]

theorem length_contents {slots : Vector α size} {sp : Nat} (h : sp ≤ size) :
    (contents slots sp).length = sp := by
  simpa only [contents, List.length_reverse, List.length_take, Vector.length_toList] using
    Nat.min_eq_left h

/-- Writing the next free slot pushes. -/
theorem contents_set (slots : Vector α size) (v : α) {sp : Nat} (h : sp < size) :
    contents (slots.set sp v) (sp + 1) = v :: contents slots sp := by
  have hlen : sp < (slots.toList.set sp v).length := by simpa using h
  have htake : (slots.toList.set sp v).take (sp + 1) = slots.toList.take sp ++ [v] := by
    rw [List.take_succ_eq_append_getElem hlen, List.getElem_set_self, List.take_set_of_le (Nat.le_refl sp)]
  simp [contents, Vector.toList_set, htake]

/-- The slot below the stack pointer is the top. -/
theorem contents_pop (slots : Vector α size) {sp : Nat} (hpos : 0 < sp) (hle : sp ≤ size) :
    contents slots sp = slots[sp - 1] :: contents slots (sp - 1) := by
  have hlen : sp - 1 < slots.toList.length := by
    simp only [Vector.length_toList]
    omega
  have htake : slots.toList.take sp = slots.toList.take (sp - 1) ++ [slots[sp - 1]] := by
    have h := List.take_succ_eq_append_getElem hlen
    rw [show sp - 1 + 1 = sp by omega] at h
    simpa using h
  simp [contents, htake]

end bounded_stack
