import Ipmb.Support.Ownership
import Ipmb.Types

open ownership

namespace ipmb.grown_array

/-- An array that grows when it is full: its block, for how many elements there is
room, and those in use, each with a block of its own or a null pointer. -/
structure Grown (W : Type) where
  array : Option Nat
  capacity : Nat
  elems : List (W × Option Nat)

variable {W : Type}

def Grown.empty : Grown W := { array := none, capacity := 0, elems := [] }

def Grown.pointers (g : Grown W) : List (Option Nat) := g.array :: g.elems.map Prod.snd

/-- The elements without their blocks. -/
def Grown.values (g : Grown W) : List W := g.elems.map Prod.fst

def Grown.push (g : Grown W) (w : W) (p : Option Nat) : Grown W := { g with elems := g.elems ++ [(w, p)] }

/-- `if (count == capacity)` with a `realloc` to twice the room, or to the first
room there is; nothing if it is refused. With the array comes whether it moved. -/
def Grown.reserve (grants moves : Nat → Bool) (first : Nat) (g : Grown W) : Owning Fault (Option (Grown W × Bool)) :=
  if g.elems.length = g.capacity then do
    match ← realloc .useAfterFree grants g.array with
    | none => pure none
    | some p =>
      let next_cap := if g.capacity = 0 then first else g.capacity * 2
      pure (some ({ g with array := some p, capacity := next_cap }, moves p))
  else pure (some (g, false))

/-- The elements' blocks are released one after the other, then the array. -/
def Grown.release (g : Grown W) : Owning Fault (Grown W) := do
  forM (g.elems.map Prod.snd) (free .doubleFree)
  free .doubleFree g.array
  pure .empty

@[simp] theorem Grown.pointers_empty : (Grown.empty : Grown W).pointers = [none] := rfl

@[simp] theorem Grown.values_push (g : Grown W) (w : W) (p : Option Nat) : (g.push w p).values = g.values ++ [w] := by
  simp [Grown.values, Grown.push]

@[simp] theorem Grown.capacity_push (g : Grown W) (w : W) (p : Option Nat) : (g.push w p).capacity = g.capacity := rfl

@[simp] theorem Grown.length_values (g : Grown W) : g.values.length = g.elems.length := List.length_map _

theorem Grown.values_congr {g g' : Grown W} (h : g'.elems = g.elems) : g'.values = g.values :=
  congrArg (List.map Prod.fst) h

theorem Grown.blocks_pointers (g : Grown W) : blocks g.pointers = blocks [g.array] + blocks (g.elems.map Prod.snd) :=
  blocks_cons _ _

theorem Grown.blocks_push (g : Grown W) (w : W) (p : Option Nat) :
    blocks (g.push w p).pointers = blocks [p] + blocks g.pointers := by
  have helems : blocks ((g.push w p).elems.map Prod.snd) = blocks (g.elems.map Prod.snd) + blocks [p] := by
    rw [Grown.push, List.map_append, blocks_append]
    rfl
  rw [Grown.blocks_pointers, Grown.blocks_pointers, helems, ← add_assoc, add_comm]
  rfl

section rules
variable {E : Fault → Prop} {n : Nat} {own : Multiset Nat} {g : Grown W}

/-- The capacity with room for one more element. -/
def Grown.next_capacity (first : Nat) (g : Grown W) : Nat :=
  if g.elems.length = g.capacity then if g.capacity = 0 then first else g.capacity * 2 else g.capacity

/-- How a reservation ends: there is no room and none is granted, or there is; only
an array that was full moves. -/
inductive Reserved (grants moves : Nat → Bool) (first : Nat) (g : Grown W) : Option (Grown W × Bool) → Prop
  | refused (hfull : g.elems.length = g.capacity) (hrefused : ∃ i, grants i = false) :
      Reserved grants moves first g none
  | room {g' : Grown W} {moved : Bool} (helems : g'.elems = g.elems) (hcapacity : g'.capacity = g.next_capacity first)
      (hmoved : moved = true → g.elems.length = g.capacity ∧ ∃ p, moves p = true) :
      Reserved grants moves first g (some (g', moved))

/-- What is owned after a reservation. -/
def held (g : Grown W) : Option (Grown W × Bool) → Multiset Nat
  | none => blocks g.pointers
  | some r => blocks r.1.pointers

theorem Grown.reserve_spec (grants moves : Nat → Bool) (first : Nat) (g : Grown W) :
    Triple E n (blocks g.pointers) (g.reserve grants moves first) fun r _ own =>
      Reserved grants moves first g r ∧ own = held g r := by
  rw [Grown.reserve]
  by_cases hfull : g.elems.length = g.capacity
  · rw [if_pos hfull, Grown.blocks_pointers]
    refine Triple.bind Triple.realloc_any ?_
    rintro _ _ _ (⟨hrefused, rfl, rfl⟩ | ⟨p, rfl, rfl⟩)
    · exact Triple.pure ⟨.refused hfull ⟨_, hrefused⟩, (Grown.blocks_pointers g).symm⟩
    · refine Triple.pure ⟨.room rfl ?_ fun hmoved => ⟨hfull, p, hmoved⟩, ?_⟩
      · rw [Grown.next_capacity, if_pos hfull]
      · rw [held, Grown.blocks_pointers]
  · rw [if_neg hfull]
    refine Triple.pure ⟨.room rfl ?_ nofun, rfl⟩
    rw [Grown.next_capacity, if_neg hfull]

theorem Grown.release_rule {Q : Grown W → Nat → Multiset Nat → Prop} (h : Q .empty n own) :
    Triple E n (blocks g.pointers + own) g.release Q := by
  rw [Grown.blocks_pointers, add_assoc, add_left_comm, Grown.release]
  refine Triple.bind (Triple.forM_free (Q := fun _ n' own' => n' = n ∧ own' = blocks [g.array] + own) ⟨rfl, rfl⟩) ?_
  rintro _ n _ ⟨rfl, rfl⟩
  refine Triple.bind (Triple.free (Q := fun _ n' own' => n' = n ∧ own' = own) ⟨rfl, rfl⟩) ?_
  rintro _ _ _ ⟨rfl, rfl⟩
  exact Triple.pure h

end rules

end ipmb.grown_array
