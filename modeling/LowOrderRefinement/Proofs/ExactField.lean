import Mathlib.Algebra.Order.Ring.Rat
import Mathlib.Algebra.BigOperators.Group.List.Basic
import Mathlib.Algebra.Field.Rat
import Mathlib.Data.Rat.Sqrt
import Mathlib.Tactic.FieldSimp
import Mathlib.Tactic.Linarith
import Mathlib.Tactic.Ring
import LowOrderRefinement.Scalar

/-! Exact arithmetic. The operations on scalars are read as those of an ordered field,
with any function in place of the square root, which only the comparison of
Jacobians uses. -/

namespace LowOrderRefinement

/-- An ordered field with a function that stands for the square root. -/
class ExactField (K : Type) extends Field K, LinearOrder K, IsStrictOrderedRing K where
  root : K → K

namespace ExactField

variable {K : Type} [ExactField K]

@[reducible] instance scalar : Scalar K where
  half := 1 / 2
  sqrt := root
  isPos x := decide (0 < x)
  le x y := decide (x ≤ y)
  ofNat n := n
  recip n := 1 / n

/-- Rational arithmetic, with the square root that is exact at squares. -/
instance : ExactField ℚ where
  root := Rat.sqrt

theorem half_eq : (Scalar.half : K) = 1 / 2 := rfl

theorem recip_eq (n : Nat) : (Scalar.recip n : K) = 1 / n := rfl

theorem ofNat_eq (n : Nat) : (Scalar.ofNat n : K) = n := rfl

@[simp] theorem isPos_eq_true {x : K} : Scalar.isPos x = true ↔ 0 < x := decide_eq_true_iff

@[simp] theorem isZero_eq_true {x : K} : Scalar.isZero x = true ↔ x = 0 := by
  simp only [Scalar.isZero, Bool.and_eq_true]
  exact (and_congr decide_eq_true_iff decide_eq_true_iff).trans le_antisymm_iff.symm

end ExactField

/-! ### Sums -/

section Sums

variable {K β : Type} [ExactField K]

theorem foldl_eq_sum (f : β → K) (xs : List β) (start : K) :
    xs.foldl (fun acc x => acc + f x) start = start + (xs.map f).sum := by
  induction xs generalizing start with
  | nil => simp
  | cons x xs ih => rw [List.foldl_cons, ih, List.map_cons, List.sum_cons, add_assoc]

theorem Scalar.sumLeft_eq (xs : List K) : sumLeft xs = xs.sum := by
  cases xs with
  | nil => rfl
  | cons x xs =>
    have hfold := foldl_eq_sum id xs x
    rw [List.map_id] at hfold
    rw [sumLeft, List.sum_cons, ← hfold]
    rfl

theorem Scalar.dot_map (x y : β → K) (vs : List β) :
    dot (vs.map x) (vs.map y) = (vs.map fun v => x v * y v).sum := by
  rw [dot, List.zipWith_map, List.zipWith_self, sumLeft_eq]

end Sums

end LowOrderRefinement
