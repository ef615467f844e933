import Mathlib.Data.List.ReduceOption
import Mathlib.Data.List.Rotate
import Mathlib.Data.Nat.ModEq

namespace circular

variable {α : Type}

/-- Slots that are filled in turn, and which is the next. -/
def push (s : List (Option α) × Nat) (a : α) : List (Option α) × Nat :=
  (s.1.set s.2 (some a), (s.2 + 1) % s.1.length)

/-- Filling empty slots. -/
def fill (k : Nat) (as : List α) : List (Option α) × Nat :=
  as.foldl push (List.replicate k none, 0)

theorem fill_append_singleton (k : Nat) (as : List α) (a : α) : fill k (as ++ [a]) = push (fill k as) a := by
  rw [fill, List.foldl_append]
  rfl

/-- Read from the slot behind it, a new element is the last, and the one it
replaces is missing. -/
theorem rotate_set_succ {xs : List α} {i : Nat} (h : i < xs.length) (x : α) :
    (xs.set i x).rotate ((i + 1) % xs.length) = (xs.rotate i).tail ++ [x] := by
  have hfront : (xs.take i).length = i := by
    rw [List.length_take]
    omega
  have hxs : xs.rotate i = xs[i] :: xs.drop (i + 1) ++ xs.take i := by
    rw [List.rotate_eq_drop_append_take h.le, List.drop_eq_getElem_cons h]
  have hset : xs.set i x = (xs.take i ++ [x]) ++ xs.drop (i + 1) := by
    rw [List.set_eq_take_append_cons_drop, if_pos h, List.append_assoc, List.singleton_append]
  have hrotate := List.rotate_append_length_eq (xs.take i ++ [x]) (xs.drop (i + 1))
  rw [List.length_append, hfront, List.length_singleton, ← hset] at hrotate
  have hlength : (xs.set i x).length = xs.length := List.length_set
  rw [← hlength, List.rotate_mod, hrotate, hxs, List.cons_append, List.tail_cons, List.append_assoc]

/-- What is read from the next slot on: the empty slots, and then the last
elements in their order. -/
def window (k : Nat) (as : List α) : List (Option α) :=
  List.replicate (k - as.length) none ++ (as.drop (as.length - k)).map some

theorem window_append_singleton {k : Nat} (hk : 0 < k) (as : List α) (a : α) :
    (window k as).tail ++ [some a] = window k (as ++ [a]) := by
  rw [window, window, List.length_append, List.length_singleton, List.drop_append_of_le_length (by omega),
    List.map_append, ← List.append_assoc]
  congr 1
  by_cases hroom : as.length < k
  · obtain ⟨room, hroom⟩ : ∃ room, k = as.length + 1 + room := ⟨k - (as.length + 1), by omega⟩
    have hfirst : k - as.length = room + 1 := by omega
    have hsecond : k - (as.length + 1) = room := by omega
    rw [hfirst, hsecond, List.replicate_succ, List.cons_append, List.tail_cons,
      Nat.sub_eq_zero_of_le (by omega : as.length ≤ k), Nat.sub_eq_zero_of_le (by omega : as.length + 1 ≤ k)]
  · rw [Nat.sub_eq_zero_of_le (by omega : k ≤ as.length), Nat.sub_eq_zero_of_le (by omega : k ≤ as.length + 1),
      Nat.sub_add_comm (by omega : k ≤ as.length), List.replicate_zero, List.nil_append, List.nil_append,
      ← List.tail_drop, List.map_tail]

theorem fill_spec {k : Nat} (hk : 0 < k) (as : List α) :
    (fill k as).1.length = k ∧ (fill k as).2 = as.length % k ∧
      (fill k as).1.rotate (as.length % k) = window k as := by
  induction as using List.reverseRecOn with
  | nil => simp [fill, window]
  | append_singleton as a ih =>
    obtain ⟨hlength, hhead, hrotate⟩ := ih
    have hlt : as.length % k < (fill k as).1.length := by
      rw [hlength]
      exact Nat.mod_lt _ hk
    have hpush := rotate_set_succ hlt (some a)
    rw [hlength, hrotate, Nat.mod_add_mod, window_append_singleton hk] at hpush
    rw [fill_append_singleton, push, hlength, hhead, List.length_append, List.length_singleton]
    exact ⟨List.length_set.trans hlength, Nat.mod_add_mod _ _ _, hpush⟩

/-- The slots themselves, from where the window shows them. -/
theorem getElem?_fill_of_window {k : Nat} (hk : 0 < k) (as : List α) {t : Nat} (ht : t < k) :
    (fill k as).1[(t + as.length) % k]? = (window k as)[t]? := by
  obtain ⟨hlength, -, hrotate⟩ := fill_spec hk as
  rw [← hrotate, List.getElem?_rotate (by omega), hlength, Nat.add_mod_mod]

/-- A slot holds the last element whose turn it was. -/
theorem getElem?_fill {k : Nat} (hk : 0 < k) {as : List α} {i : Nat} (hi : i < as.length)
    (hlast : as.length ≤ i + k) : (fill k as).1[i % k]? = some as[i]? := by
  have hslot := getElem?_fill_of_window hk as (by omega : i + k - as.length < k)
  rw [Nat.sub_add_cancel hlast, Nat.add_mod_right] at hslot
  rw [hslot, window, List.getElem?_append_right (by rw [List.length_replicate]; omega), List.length_replicate,
    List.getElem?_map, List.getElem?_drop]
  have hindex : as.length - k + (i + k - as.length - (k - as.length)) = i := by omega
  rw [hindex, List.getElem?_eq_getElem hi, Option.map_some]

/-- A slot whose turn has not come is empty. -/
theorem getElem?_fill_empty {k : Nat} {as : List α} {j : Nat} (hj : j < k) (hnone : as.length ≤ j) :
    (fill k as).1[j]? = some none := by
  have hslot := getElem?_fill_of_window (by omega) as (by omega : j - as.length < k)
  rw [Nat.sub_add_cancel hnone, Nat.mod_eq_of_lt hj] at hslot
  rw [hslot, window, List.getElem?_append_left (by rw [List.length_replicate]; omega),
    List.getElem?_replicate_of_lt (by omega)]

/-- The elements that are left, oldest first. -/
theorem reduceOption_window (k : Nat) (as : List α) : (window k as).reduceOption = as.drop (as.length - k) := by
  rw [window, List.reduceOption_append, List.reduceOption_replicate_none, List.nil_append, List.reduceOption,
    List.filterMap_map]
  simp

end circular
