import Mathlib.Algebra.Order.Field.Basic
import Mathlib.Algebra.Order.Floor.Defs
import Mathlib.Tactic.Linarith
import Mathlib.Tactic.Ring
import OffshoreFlights.Scalar

/-! Exact arithmetic: every ordered field in which numbers can be rounded down is a type of numbers
to plan with, and none of its operations rounds. What holds over all such fields is what the
algorithms do apart from rounding. -/

namespace OffshoreFlights

-- Over a field, its own operations are the ones that statements mean.
attribute [instance (10)] Scalar.toZero Scalar.toNatCast Scalar.toAdd Scalar.toSub Scalar.toMul
  Scalar.toDiv Scalar.toNeg Scalar.toLT Scalar.toLE Scalar.toBEq

variable {K : Type} [Field K] [LinearOrder K] [FloorRing K]

/-- Exact arithmetic in an ordered field. All values are finite. -/
instance (priority := 100) Scalar.exact : Scalar K where
  decLt := inferInstance
  decLe := inferInstance
  isFinite _ := true
  compareTotal := compare
  floorWord x := min ⌊x⌋.toNat (2 ^ 32 - 1)

namespace Scalar

theorem lesser_exact (x y : K) : lesser x y = min x y := by
  unfold lesser
  rcases lt_or_ge y x with h | h
  · rw [min_eq_right h.le]
    exact if_pos h
  · rw [min_eq_left h]
    exact if_neg (not_lt.mpr h)

theorem magnitude_exact [IsStrictOrderedRing K] (x : K) : magnitude x = |x| := by
  unfold magnitude
  split
  next hx => exact (abs_of_neg hx).symm
  next hx => exact (abs_of_nonneg (not_lt.mp hx)).symm

theorem sum_exact (xs : List K) : sum xs = xs.sum := by
  have hfold : ∀ start : K, xs.foldl (fun a b => a + b) start = start + xs.sum := by
    induction xs with
    | nil => simp
    | cons x xs ih =>
      intro start
      rw [List.foldl_cons, ih, List.sum_cons, add_assoc]
  exact (hfold _).trans (by rw [show (-0 : K) = 0 from neg_zero, zero_add])

theorem isLE_compareTotal_exact (x y : K) : (compareTotal x y).isLE = true ↔ x ≤ y := by
  rw [Ordering.isLE_iff_ne_gt]
  exact compare_le_iff_le

end Scalar

end OffshoreFlights
