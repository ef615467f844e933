import Mathlib.Data.List.Basic
import Mathlib.Tactic.SplitIfs

namespace heap

/-- Every block there ever was, by its number: what it holds, or nothing once
it has been released. Numbers are never used again. -/
structure Heap (α : Type) where
  blocks : List (Option α)
  deriving Repr, DecidableEq

variable {α : Type}

def Heap.empty : Heap α := { blocks := [] }

/-- The number of a new block that holds a value, and the heap with it. -/
def Heap.alloc (h : Heap α) (a : α) : Nat × Heap α :=
  (h.blocks.length, { blocks := h.blocks ++ [some a] })

/-- What a live block holds. -/
def Heap.read (h : Heap α) (p : Nat) : Option α := h.blocks[p]?.join

/-- Changing what a live block holds. -/
def Heap.write (h : Heap α) (p : Nat) (a : α) : Option (Heap α) :=
  (h.read p).map fun _ => { blocks := h.blocks.set p (some a) }

/-- Releasing a live block. -/
def Heap.free (h : Heap α) (p : Nat) : Option (Heap α) :=
  (h.read p).map fun _ => { blocks := h.blocks.set p none }

def Heap.Retired (h : Heap α) (p : Nat) : Prop := h.blocks[p]? = some none

theorem Heap.lt_length_of_read {h : Heap α} {p : Nat} {a : α} (hread : h.read p = some a) :
    p < h.blocks.length := by
  by_contra hlong
  rw [Heap.read, List.getElem?_eq_none (by omega)] at hread
  cases hread

theorem Heap.Retired.read {h : Heap α} {p : Nat} (hretired : h.Retired p) : h.read p = none := by
  rw [Heap.read, hretired]
  rfl

theorem Heap.Retired.free {h : Heap α} {p : Nat} (hretired : h.Retired p) : h.free p = none := by
  rw [Heap.free, hretired.read]
  rfl

@[simp] theorem Heap.read_alloc_self (h : Heap α) (a : α) : (h.alloc a).2.read (h.alloc a).1 = some a := by
  simp [Heap.alloc, Heap.read]

/-- A new block leaves the others alone. -/
theorem Heap.read_alloc_of_lt {h : Heap α} {p : Nat} (a : α) (hp : p < h.blocks.length) :
    (h.alloc a).2.read p = h.read p := by
  simp [Heap.alloc, Heap.read, List.getElem?_append_left hp]

theorem Heap.Retired.alloc {h : Heap α} {p : Nat} (hretired : h.Retired p) (a : α) :
    (h.alloc a).2.Retired p := by
  have hp : p < h.blocks.length := by
    by_contra hlong
    rw [Heap.Retired, List.getElem?_eq_none (by omega)] at hretired
    cases hretired
  rw [Heap.Retired, Heap.alloc, List.getElem?_append_left hp]
  exact hretired

theorem Heap.free_of_read {h : Heap α} {p : Nat} {a : α} (hread : h.read p = some a) :
    ∃ h', h.free p = some h' := by
  rw [Heap.free, hread]
  exact ⟨_, rfl⟩

/-- Releasing a block retires it. -/
theorem Heap.retired_of_free {h h' : Heap α} {p : Nat} (hfree : h.free p = some h') : h'.Retired p := by
  obtain ⟨a, hread, rfl⟩ := Option.map_eq_some_iff.mp hfree
  simp [Heap.Retired, Heap.lt_length_of_read hread]

/-- Releasing a block leaves the others alone. -/
theorem Heap.read_free_ne {h h' : Heap α} {p q : Nat} (hfree : h.free p = some h') (hne : q ≠ p) :
    h'.read q = h.read q := by
  obtain ⟨a, hread, rfl⟩ := Option.map_eq_some_iff.mp hfree
  simp [Heap.read, List.getElem?_set_ne (Ne.symm hne)]

/-- What is retired stays retired. -/
theorem Heap.Retired.of_free {h h' : Heap α} {p q : Nat} (hretired : h.Retired q)
    (hfree : h.free p = some h') : h'.Retired q := by
  obtain ⟨a, hread, rfl⟩ := Option.map_eq_some_iff.mp hfree
  have hne : p ≠ q := by
    rintro rfl
    rw [hretired.read] at hread
    cases hread
  rw [Heap.Retired, List.getElem?_set_ne hne]
  exact hretired

theorem Heap.write_of_read {h : Heap α} {p : Nat} {a : α} (hread : h.read p = some a) (b : α) :
    ∃ h', h.write p b = some h' := by
  rw [Heap.write, hread]
  exact ⟨_, rfl⟩

/-- A write shows in its own block only. -/
theorem Heap.read_write {h h' : Heap α} {p : Nat} {b : α} (hwrite : h.write p b = some h') (q : Nat) :
    h'.read q = if q = p then some b else h.read q := by
  obtain ⟨a, hread, rfl⟩ := Option.map_eq_some_iff.mp hwrite
  split_ifs with hq
  · subst hq
    simp [Heap.read, Heap.lt_length_of_read hread]
  · simp [Heap.read, List.getElem?_set_ne (Ne.symm hq)]

theorem Heap.Retired.of_write {h h' : Heap α} {p q : Nat} {b : α} (hretired : h.Retired q)
    (hwrite : h.write p b = some h') : h'.Retired q := by
  obtain ⟨a, hread, rfl⟩ := Option.map_eq_some_iff.mp hwrite
  have hne : p ≠ q := by
    rintro rfl
    rw [hretired.read] at hread
    cases hread
  rw [Heap.Retired, List.getElem?_set_ne hne]
  exact hretired

/-- A release empties one block. -/
theorem Heap.read_free {h h' : Heap α} {p : Nat} (hfree : h.free p = some h') (q : Nat) :
    h'.read q = if q = p then none else h.read q := by
  split_ifs with hq
  · rw [hq]
    exact (Heap.retired_of_free hfree).read
  · exact Heap.read_free_ne hfree hq

/-- Releasing blocks one after the other. -/
def Heap.freeAll (h : Heap α) : List Nat → Option (Heap α)
  | [] => some h
  | p :: ps => (h.free p).bind fun h => h.freeAll ps

/-- It takes different live blocks. -/
theorem Heap.freeAll_of_live {h : Heap α} {ps : List Nat} (hlive : ∀ p ∈ ps, ∃ a, h.read p = some a)
    (hnodup : ps.Nodup) : ∃ h', h.freeAll ps = some h' := by
  induction ps generalizing h with
  | nil => exact ⟨h, rfl⟩
  | cons p ps ih =>
    obtain ⟨hp, hnodup⟩ := List.nodup_cons.mp hnodup
    obtain ⟨a, hread⟩ := hlive p List.mem_cons_self
    obtain ⟨h₁, hfree⟩ := Heap.free_of_read hread
    obtain ⟨h', hrest⟩ := ih (h := h₁) (fun q hq => by
      have hne : q ≠ p := fun heq => hp (heq ▸ hq)
      rw [Heap.read_free_ne hfree hne]
      exact hlive q (List.mem_cons_of_mem p hq)) hnodup
    exact ⟨h', by rw [Heap.freeAll, hfree, Option.bind_some, hrest]⟩

/-- None of the blocks was released before, and these are empty then. -/
theorem Heap.freeAll_cases {h h' : Heap α} {ps : List Nat} (hfree : h.freeAll ps = some h') :
    (∀ p, h.Retired p → p ∉ ps) ∧ ∀ q, h'.read q = if q ∈ ps then none else h.read q := by
  induction ps generalizing h with
  | nil =>
    cases hfree
    exact ⟨fun _ _ => List.not_mem_nil, fun _ => by rw [if_neg List.not_mem_nil]⟩
  | cons p ps ih =>
    rw [Heap.freeAll, Option.bind_eq_some_iff] at hfree
    obtain ⟨h₁, hp, hrest⟩ := hfree
    obtain ⟨hnot, hread⟩ := ih hrest
    refine ⟨fun q hq hmem => ?_, fun q => ?_⟩
    · obtain rfl | hmem := List.mem_cons.mp hmem
      · rw [hq.free] at hp
        cases hp
      · exact hnot q (hq.of_free hp) hmem
    · rw [hread, Heap.read_free hp]
      by_cases hq : q = p
      · simp [hq]
      · simp [hq]

/-- The blocks hold the values, one for one. -/
def Heap.Holds (h : Heap α) (ps : List Nat) (as : List α) : Prop := ps.map h.read = as.map some

theorem Heap.holds_nil (h : Heap α) : h.Holds [] [] := rfl

theorem Heap.holds_cons {h : Heap α} {p : Nat} {ps : List Nat} {a : α} {as : List α} :
    h.Holds (p :: ps) (a :: as) ↔ h.read p = some a ∧ h.Holds ps as := by
  simp [Heap.Holds]

theorem Heap.holds_append {h : Heap α} {ps qs : List Nat} {as bs : List α} (hps : h.Holds ps as)
    (hqs : h.Holds qs bs) : h.Holds (ps ++ qs) (as ++ bs) := by
  rw [Heap.Holds, List.map_append, List.map_append, hps, hqs]

theorem Heap.Holds.length {h : Heap α} {ps : List Nat} {as : List α} (hholds : h.Holds ps as) :
    ps.length = as.length := by
  simpa using congrArg List.length hholds

theorem Heap.Holds.read {h : Heap α} {ps : List Nat} {as : List α} (hholds : h.Holds ps as) {p : Nat}
    (hp : p ∈ ps) : ∃ a ∈ as, h.read p = some a := by
  have hmem : h.read p ∈ as.map some := by
    rw [← hholds]
    exact List.mem_map_of_mem hp
  obtain ⟨a, ha, heq⟩ := List.mem_map.mp hmem
  exact ⟨a, ha, heq.symm⟩

theorem Heap.Holds.zip {h : Heap α} {ps : List Nat} {as : List α} (hholds : h.Holds ps as) {p : Nat} {a : α}
    (hmem : (p, a) ∈ ps.zip as) : p ∈ ps ∧ h.read p = some a := by
  induction ps generalizing as with
  | nil => cases hmem
  | cons q ps ih =>
    cases as with
    | nil => cases hmem
    | cons b as =>
      obtain ⟨hq, hrest⟩ := Heap.holds_cons.mp hholds
      rw [List.zip_cons_cons, List.mem_cons] at hmem
      obtain hhead | hmem := hmem
      · cases hhead
        exact ⟨List.mem_cons_self, hq⟩
      · obtain ⟨hp, hread⟩ := ih hrest hmem
        exact ⟨List.mem_cons_of_mem _ hp, hread⟩

/-- Where a value stands its block does. -/
theorem Heap.Holds.split {h : Heap α} {ps : List Nat} {as bs : List α} {a : α}
    (hholds : h.Holds ps (as ++ a :: bs)) :
    ∃ ps₁ p ps₂, ps = ps₁ ++ p :: ps₂ ∧ h.Holds ps₁ as ∧ h.read p = some a ∧ h.Holds ps₂ bs := by
  rw [Heap.Holds, List.map_append, List.map_cons] at hholds
  obtain ⟨ps₁, rest, rfl, hfront, hrest⟩ := List.map_eq_append_iff.mp hholds
  obtain ⟨p, ps₂, rfl, hp, hback⟩ := List.map_eq_cons_iff.mp hrest
  exact ⟨ps₁, p, ps₂, rfl, hfront, hp, hback⟩

theorem Heap.Holds.congr {h h' : Heap α} {ps : List Nat} {as : List α} (hholds : h.Holds ps as)
    (heq : ∀ p ∈ ps, h'.read p = h.read p) : h'.Holds ps as := by
  rw [Heap.Holds, List.map_congr_left heq]
  exact hholds

end heap
