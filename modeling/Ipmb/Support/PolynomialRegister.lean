import Ipmb.Support.ShiftRegister
import Mathlib.Algebra.Field.ZMod
import Mathlib.Algebra.Polynomial.Div
import Mathlib.Data.List.GetD
import Mathlib.RingTheory.AdjoinRoot

open Polynomial

namespace shift_register

noncomputable section

variable {w k : Nat}

/-- A bit as a coefficient. -/
def coefficient (b : Bool) : ZMod 2 := if b then 1 else 0

/-- A register as a polynomial, the low end at the highest power. -/
def poly_of (x : BitVec w) : (ZMod 2)[X] :=
  ∑ i ∈ Finset.range w, monomial i (coefficient (x.getMsbD i))

/-- The polynomial a register divides by. Its highest power is not in the
feedback. -/
def divisor (poly : BitVec w) : (ZMod 2)[X] := X ^ w + poly_of poly

/-- Symbols as one polynomial, the first at the highest powers and each with
its low end first. -/
def message : List (BitVec k) → (ZMod 2)[X]
  | [] => 0
  | c :: cs => X ^ (k * cs.length) * poly_of c + message cs

@[simp] theorem coefficient_xor (a b : Bool) : coefficient (a ^^ b) = coefficient a + coefficient b := by
  cases a <;> cases b <;> decide

@[simp] theorem coefficient_and (a b : Bool) : coefficient (a && b) = coefficient a * coefficient b := by
  cases a <;> cases b <;> decide

@[simp] theorem coeff_poly_of (x : BitVec w) (i : Nat) : (poly_of x).coeff i = coefficient (x.getMsbD i) := by
  simp only [poly_of, finsetSum_coeff, coeff_monomial, Finset.sum_ite_eq', Finset.mem_range]
  split
  · rfl
  · rename_i hi
    rw [BitVec.getMsbD_of_ge x i (Nat.not_lt.mp hi)]
    rfl

theorem degree_poly_of_lt (x : BitVec w) : (poly_of x).degree < w := by
  apply (degree_lt_iff_coeff_zero _ _).mpr
  intro i hi
  rw [coeff_poly_of, BitVec.getMsbD_of_ge x i hi]
  rfl

theorem poly_of_xor (x y : BitVec w) : poly_of (x ^^^ y) = poly_of x + poly_of y := by
  ext i
  simp

/-- The register that stands for a polynomial below the power of its width. -/
def of_poly (w : Nat) (p : (ZMod 2)[X]) : BitVec w :=
  (BitVec.ofBoolListLE ((List.range w).map fun i => decide (p.coeff (w - 1 - i) = 1))).setWidth w

theorem of_poly_poly_of (x : BitVec w) : of_poly w (poly_of x) = x := by
  apply BitVec.eq_of_getLsbD_eq
  intro i hi
  have hbit : ∀ b : Bool, decide (coefficient b = 1) = b := by
    intro b
    cases b <;> decide
  have hindex : w - 1 - (w - 1 - i) = i := by omega
  have htop : w - 1 - i < w := by omega
  have hget : ((List.range w).map fun i => decide ((poly_of x).coeff (w - 1 - i) = 1)).getD i false =
      decide ((poly_of x).coeff (w - 1 - i) = 1) := by
    rw [List.getD_eq_getElem _ _ (by simpa using hi), List.getElem_map, List.getElem_range]
  rw [of_poly, BitVec.getLsbD_setWidth, decide_eq_true hi, Bool.true_and, BitVec.getLsbD_ofBoolListLE, hget,
    coeff_poly_of, hbit, BitVec.getMsbD_eq_getLsbD, hindex, decide_eq_true htop, Bool.true_and]

theorem divisor_monic (poly : BitVec w) : (divisor poly).Monic :=
  monic_X_pow_add (degree_poly_of_lt poly)

/-- What stands before a coefficient, shifted up by one power. -/
theorem coeff_X_mul_poly_of (x : BitVec w) (i : Nat) :
    (X * poly_of x).coeff i = if i ≤ w then coefficient (x.getLsbD (w - i)) else 0 := by
  cases i with
  | zero =>
    rw [coeff_X_mul_zero, if_pos (Nat.zero_le w), Nat.sub_zero, BitVec.getLsbD_of_ge x _ (Nat.le_refl w)]
    rfl
  | succ i =>
    rw [coeff_X_mul, coeff_poly_of, BitVec.getMsbD_eq_getLsbD]
    by_cases hi : i < w
    · rw [if_pos (Nat.succ_le_of_lt hi), decide_eq_true hi, Bool.true_and, Nat.sub_sub, Nat.add_comm]
    · rw [if_neg (mt Nat.lt_of_succ_le hi), decide_eq_false hi]
      rfl

/-- A step multiplies by the variable and takes the divisor away where the
highest power is reached. -/
theorem poly_of_step (poly x : BitVec w) :
    X * poly_of x = poly_of (step poly x) + C (coefficient (x.getLsbD 0)) * divisor poly := by
  ext i
  rw [coeff_X_mul_poly_of, coeff_add, coeff_C_mul, divisor, coeff_add, coeff_X_pow, coeff_poly_of, coeff_poly_of]
  obtain hi | rfl | hi := Nat.lt_trichotomy i w
  · have hstep : (step poly x).getMsbD i = (x.getLsbD (w - i) ^^ (x.getLsbD 0 && poly.getMsbD i)) := by
      have hindex : w - 1 - i + 1 = w - i := by omega
      rw [BitVec.getMsbD_eq_getLsbD, BitVec.getMsbD_eq_getLsbD, getLsbD_step, decide_eq_true hi, Bool.true_and,
        Bool.true_and, hindex]
    rw [hstep, coefficient_xor, coefficient_and, if_pos hi.le, if_neg hi.ne, zero_add, add_assoc,
      CharTwo.add_self_eq_zero, add_zero]
  · rw [BitVec.getMsbD_of_ge _ _ (Nat.le_refl i), BitVec.getMsbD_of_ge _ _ (Nat.le_refl i), if_pos (Nat.le_refl i),
      if_pos rfl, Nat.sub_self]
    simp [coefficient]
  · rw [BitVec.getMsbD_of_ge _ _ hi.le, BitVec.getMsbD_of_ge _ _ hi.le, if_neg (Nat.not_le.mpr hi),
      if_neg hi.ne']
    simp [coefficient]

/-- The residue of a polynomial. -/
def residue (poly : BitVec w) : (ZMod 2)[X] →+* AdjoinRoot (divisor poly) := AdjoinRoot.mk (divisor poly)

theorem residue_step (poly x : BitVec w) :
    residue poly (poly_of (step poly x)) = residue poly (X * poly_of x) := by
  rw [poly_of_step, map_add, map_mul, residue, AdjoinRoot.mk_self, mul_zero, add_zero]

theorem residue_iterate_step (poly x : BitVec w) (n : Nat) :
    residue poly (poly_of ((step poly)^[n] x)) = residue poly (X ^ n * poly_of x) := by
  induction n with
  | zero => simp
  | succ n ih =>
    rw [Function.iterate_succ_apply', residue_step, map_mul, ih, ← map_mul, ← mul_assoc, ← pow_succ']

/-- A symbol at the low end stands at the highest powers of the register. -/
theorem X_pow_mul_poly_of_setWidth (c : BitVec k) (hk : k ≤ w) :
    X ^ k * poly_of (c.setWidth w) = X ^ w * poly_of c := by
  have hshift : poly_of (c.setWidth w) = X ^ (w - k) * poly_of c := by
    ext i
    rw [coeff_X_pow_mul', coeff_poly_of, coeff_poly_of, BitVec.getMsbD_eq_getLsbD, BitVec.getLsbD_setWidth,
      BitVec.getMsbD_eq_getLsbD]
    by_cases hhigh : w - k ≤ i
    · rw [if_pos hhigh]
      by_cases hi : i < w
      · have hindex : k - 1 - (i - (w - k)) = w - 1 - i := by omega
        have hbit : w - 1 - i < w := by omega
        have hsymbol : i - (w - k) < k := by omega
        rw [hindex, decide_eq_true hi, decide_eq_true hbit, decide_eq_true hsymbol, Bool.true_and]
      · have hout : ¬i - (w - k) < k := by omega
        rw [decide_eq_false hi, decide_eq_false hout, Bool.false_and, Bool.false_and]
    · rw [if_neg hhigh, BitVec.getLsbD_of_ge c _ (by omega), Bool.and_false, Bool.and_false]
      rfl
  rw [hshift, ← mul_assoc, ← pow_add, Nat.add_sub_cancel' hk]

theorem residue_feed (poly x : BitVec w) (c : BitVec k) (hk : k ≤ w) :
    residue poly (poly_of (feed poly x c)) = residue poly (X ^ k * poly_of x + X ^ w * poly_of c) := by
  rw [feed, residue_iterate_step, poly_of_xor, mul_add, X_pow_mul_poly_of_setWidth c hk]

/-- A register that symbols are fed to holds a residue of what it held before
them and of the symbols. -/
theorem residue_foldl_feed (poly x : BitVec w) (cs : List (BitVec k)) (hk : k ≤ w) :
    residue poly (poly_of (cs.foldl (feed poly) x)) =
      residue poly (X ^ (k * cs.length) * poly_of x + X ^ w * message cs) := by
  induction cs generalizing x with
  | nil => simp [message]
  | cons c cs ih =>
    rw [List.foldl_cons, ih, map_add, map_mul, residue_feed poly x c hk, ← map_mul, ← map_add, message,
      List.length_cons]
    exact congrArg (residue poly) (by ring)

/-- It is the remainder of the two. -/
theorem poly_of_foldl_feed (poly x : BitVec w) (cs : List (BitVec k)) (hk : k ≤ w) :
    poly_of (cs.foldl (feed poly) x) =
      (X ^ (k * cs.length) * poly_of x + X ^ w * message cs) %ₘ divisor poly := by
  have hdegree : (poly_of (cs.foldl (feed poly) x)).degree < (divisor poly).degree := by
    have hpoly : (poly_of poly).degree < (X ^ w : (ZMod 2)[X]).degree := by
      rw [degree_X_pow]
      exact degree_poly_of_lt poly
    rw [divisor, degree_add_eq_left_of_degree_lt hpoly, degree_X_pow]
    exact degree_poly_of_lt _
  have hdvd := AdjoinRoot.mk_eq_mk.mp (residue_foldl_feed poly x cs hk)
  rw [← modByMonic_eq_of_dvd_sub (divisor_monic poly) hdvd]
  exact ((modByMonic_eq_self_iff (divisor_monic poly)).mpr hdegree).symm

end

end shift_register
