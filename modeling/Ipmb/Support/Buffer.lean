import Mathlib.Data.List.Basic

namespace buffer

/-- A block that is filled from the front: how much it has room for, and what
was written so far. -/
@[ext] structure Buffer (α : Type) where
  capacity : Nat
  written : List α
  written_le : written.length ≤ capacity
  deriving Repr, DecidableEq

variable {α : Type}

def Buffer.alloc (capacity : Nat) : Buffer α :=
  { capacity, written := [], written_le := Nat.zero_le _ }

/-- Writing behind what is there, as far as there is room. -/
def Buffer.write (b : Buffer α) (items : List α) : Option (Buffer α) :=
  if h : (b.written ++ items).length ≤ b.capacity then
    some { b with written := b.written ++ items, written_le := h }
  else none

/-- The block with another capacity. What no longer fits is lost. -/
def Buffer.resize (b : Buffer α) (capacity : Nat) : Buffer α :=
  { capacity, written := b.written.take capacity, written_le := List.length_take_le _ _ }

@[simp] theorem Buffer.written_alloc (capacity : Nat) : (Buffer.alloc capacity : Buffer α).written = [] := rfl

@[simp] theorem Buffer.capacity_alloc (capacity : Nat) :
    (Buffer.alloc capacity : Buffer α).capacity = capacity := rfl

@[simp] theorem Buffer.capacity_resize (b : Buffer α) (capacity : Nat) :
    (b.resize capacity).capacity = capacity := rfl

/-- Where there is room a write goes through, and is a write behind the rest. -/
theorem Buffer.write_of_le {b : Buffer α} {items : List α}
    (h : b.written.length + items.length ≤ b.capacity) :
    ∃ b', b.write items = some b' ∧ b'.capacity = b.capacity ∧ b'.written = b.written ++ items := by
  have hroom : (b.written ++ items).length ≤ b.capacity := by
    rw [List.length_append]
    exact h
  refine ⟨_, dif_pos hroom, rfl, rfl⟩

/-- More room loses nothing. -/
theorem Buffer.written_resize {b : Buffer α} {capacity : Nat} (h : b.written.length ≤ capacity) :
    (b.resize capacity).written = b.written :=
  List.take_of_length_le h

end buffer
