import Ipmb.Types
import Mathlib.Algebra.Group.Int.Defs

namespace ipmb.int_arith

/-- The values of an `int`. -/
def InIntRange (n : Int) : Prop := -2 ^ 31 ≤ n ∧ n < 2 ^ 31

instance (n : Int) : Decidable (InIntRange n) :=
  inferInstanceAs (Decidable (_ ∧ _))

/-- `a + b` on operands of type `int`, which C leaves undefined where the exact
sum is no `int`. -/
def int_add (a b : Int32) : Except Fault Int32 :=
  if InIntRange (a.toInt + b.toInt) then .ok (a + b) else .error .signedOverflow

theorem inIntRange_toInt (a : Int32) : InIntRange a.toInt :=
  ⟨a.le_toInt, a.toInt_lt⟩

/-- In range the sum is exact. -/
theorem toInt_add_of_inIntRange {a b : Int32} (h : InIntRange (a.toInt + b.toInt)) :
    (a + b).toInt = a.toInt + b.toInt := by
  rw [Int32.toInt_add]
  exact Int.bmod_eq_of_le h.1 h.2

theorem int_add_of_inIntRange {a b : Int32} (h : InIntRange (a.toInt + b.toInt)) : int_add a b = .ok (a + b) :=
  if_pos h

theorem int_add_of_not_inIntRange {a b : Int32} (h : ¬InIntRange (a.toInt + b.toInt)) :
    int_add a b = .error .signedOverflow :=
  if_neg h

end ipmb.int_arith
