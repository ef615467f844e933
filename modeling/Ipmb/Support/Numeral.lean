import Mathlib.Data.List.Basic
import Mathlib.Data.Nat.Digits.Defs
import Mathlib.Data.Nat.Log
import Mathlib.Tactic.Ring

namespace numeral

/-- The number that digits denote, the most significant one first. -/
def value (b : Nat) (ds : List Nat) : Nat := ds.foldl (fun acc d => acc * b + d) 0

/-- Reading on from a number shifts it past the digits read. -/
theorem foldl_eq (b : Nat) (ds : List Nat) (acc : Nat) :
    ds.foldl (fun acc d => acc * b + d) acc = acc * b ^ ds.length + value b ds := by
  induction ds generalizing acc with
  | nil => simp [value]
  | cons d ds ih =>
    have hhead : value b (d :: ds) = d * b ^ ds.length + value b ds := by
      rw [value, List.foldl_cons, ih]
      ring
    rw [List.foldl_cons, ih, hhead, List.length_cons]
    ring

theorem value_cons (b d : Nat) (ds : List Nat) :
    value b (d :: ds) = d * b ^ ds.length + value b ds := by
  have hfold := foldl_eq b ds (0 * b + d)
  rw [value, List.foldl_cons, hfold]
  ring

/-- The digits of a number in the other order. -/
theorem value_reverse (b : Nat) (ds : List Nat) : value b ds.reverse = Nat.ofDigits b ds := by
  induction ds with
  | nil => rfl
  | cons d ds ih =>
    rw [List.reverse_cons, value, List.foldl_append, ← value, ih, Nat.ofDigits_cons]
    simp only [List.foldl_cons, List.foldl_nil]
    ring

/-- Without a leading zero the number of digits bounds the number from below. -/
theorem length_lt_of_value_lt {b d k : Nat} {ds : List Nat} (hb : 1 < b) (hd : d ≠ 0)
    (h : value b (d :: ds) < b ^ k) : ds.length < k := by
  have hpow : b ^ ds.length ≤ value b (d :: ds) := by
    rw [value_cons]
    calc b ^ ds.length ≤ d * b ^ ds.length := Nat.le_mul_of_pos_left _ (Nat.pos_of_ne_zero hd)
      _ ≤ d * b ^ ds.length + value b ds := Nat.le_add_right _ _
  exact (Nat.pow_lt_pow_iff_right hb).mp (lt_of_le_of_lt hpow h)

end numeral
