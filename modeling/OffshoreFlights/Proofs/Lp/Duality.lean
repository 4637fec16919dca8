import Mathlib.Algebra.BigOperators.Ring.Finset
import Mathlib.Algebra.Order.BigOperators.Group.Finset
import OffshoreFlights.Proofs.Lp.Program

/-! Duality of linear programs: values that meet all rows cost no less than the right-hand sides are
worth at duals that no column betters. So values and duals of the same worth are optimal. -/

namespace OffshoreFlights.Lp.Program

variable {K : Type} [Field K] {P : Program K} {x y : ℕ → K}

theorem coefficient_of_getElem? {j : ℕ} {c : Column K} (h : P.columns[j]? = some c) (row : ℕ) :
    P.coefficient row j = c.coefficient row := by
  rw [coefficient, h]
  rfl

theorem cost_of_getElem? {j : ℕ} {c : Column K} (h : P.columns[j]? = some c) :
    P.cost j = c.cost := by
  rw [cost, h]
  rfl

theorem objective_congr {x' : ℕ → K} (h : ∀ j < P.columns.length, x j = x' j) :
    P.objective x = P.objective x' :=
  Finset.sum_congr rfl fun j hj => by rw [h j (Finset.mem_range.mp hj)]

variable (P) in
/-- What the right-hand sides are worth at given duals of the rows. -/
def worth (y : ℕ → K) : K := ∑ row ∈ Finset.range P.rhs.length, P.rhs.getD row 0 * y row

variable [LinearOrder K]

theorem IsFeasible.congr {x' : ℕ → K} (h : P.IsFeasible x)
    (heq : ∀ j < P.columns.length, x j = x' j) : P.IsFeasible x' where
  nonneg j hj := heq j hj ▸ h.nonneg j hj
  meets row hrow := by
    rw [← h.meets row hrow]
    exact Finset.sum_congr rfl fun j hj => by rw [heq j (Finset.mem_range.mp hj)]

/-- Values that meet all rows and duals that no column betters, of the same worth. -/
structure OptimalPair (P : Program K) (x y : ℕ → K) : Prop where
  primal : P.IsFeasible x
  dual : ∀ c ∈ P.columns, 0 ≤ c.reducedCost P.rhs.length y
  worth : P.objective x = P.worth y

instance (x y : ℕ → K) : Decidable (P.OptimalPair x y) :=
  decidable_of_iff (P.IsFeasible x ∧ (∀ c ∈ P.columns, 0 ≤ c.reducedCost P.rhs.length y) ∧
      P.objective x = P.worth y)
    ⟨fun h => ⟨h.1, h.2.1, h.2.2⟩, fun h => ⟨h.primal, h.dual, h.worth⟩⟩

variable [IsStrictOrderedRing K]

/-- Weak duality. -/
theorem worth_le_objective (hx : P.IsFeasible x)
    (hy : ∀ c ∈ P.columns, 0 ≤ c.reducedCost P.rhs.length y) : P.worth y ≤ P.objective x := by
  have hcolumn : ∀ j ∈ Finset.range P.columns.length,
      (∑ row ∈ Finset.range P.rhs.length, P.coefficient row j * y row) * x j ≤ P.cost j * x j := by
    intro j hj
    have hj := Finset.mem_range.mp hj
    have hget : P.columns[j]? = some P.columns[j] := List.getElem?_eq_getElem hj
    have hdual := hy _ (List.getElem_mem hj)
    rw [Column.reducedCost, sub_nonneg] at hdual
    rw [cost_of_getElem? hget]
    simp only [coefficient_of_getElem? hget]
    exact mul_le_mul_of_nonneg_right hdual (hx.nonneg j hj)
  calc P.worth y
      = ∑ row ∈ Finset.range P.rhs.length,
          (∑ j ∈ Finset.range P.columns.length, P.coefficient row j * x j) * y row :=
        Finset.sum_congr rfl fun row hrow => by rw [hx.meets row (Finset.mem_range.mp hrow)]
    _ = ∑ j ∈ Finset.range P.columns.length,
          (∑ row ∈ Finset.range P.rhs.length, P.coefficient row j * y row) * x j := by
        simp only [Finset.sum_mul]
        rw [Finset.sum_comm]
        exact Finset.sum_congr rfl fun j _ => Finset.sum_congr rfl fun row _ =>
          mul_right_comm _ _ _
    _ ≤ P.objective x := Finset.sum_le_sum hcolumn

theorem OptimalPair.least (h : P.OptimalPair x y) {x' : ℕ → K} (hx' : P.IsFeasible x') :
    P.objective x ≤ P.objective x' := h.worth.trans_le (worth_le_objective hx' h.dual)

end OffshoreFlights.Lp.Program
