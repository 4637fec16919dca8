import Mathlib.Algebra.BigOperators.Group.Finset.Basic
import Mathlib.Algebra.Order.Ring.Defs
import OffshoreFlights.Lp.Program
import OffshoreFlights.Proofs.Exact

/-! What a linear program `min c x, A x = b, x ≥ 0` asks for, read off its columns. Entries of a
column in the same row add up. -/

namespace OffshoreFlights.Lp

variable {K : Type} [Field K]

/-- What one unit of a column adds to a row. -/
def Column.coefficient (c : Column K) (row : ℕ) : K :=
  ((c.entries.filter fun entry => entry.1 = row).map Prod.snd).sum

@[simp] theorem Column.coefficient_nil (cost : K) (row : ℕ) :
    Column.coefficient ⟨cost, []⟩ row = 0 := rfl

theorem Column.coefficient_cons (cost : K) (entry : ℕ × K) (entries : List (ℕ × K)) (row : ℕ) :
    Column.coefficient ⟨cost, entry :: entries⟩ row =
      (if entry.1 = row then entry.2 else 0) + Column.coefficient ⟨cost, entries⟩ row := by
  unfold coefficient
  by_cases h : entry.1 = row <;> simp [h]

/-- The cost of a column less the worth, at given dual values, of what it adds to the rows. -/
def Column.reducedCost (c : Column K) (rows : ℕ) (dual : ℕ → K) : K :=
  c.cost - ∑ row ∈ Finset.range rows, c.coefficient row * dual row

theorem Column.reducedCost_congr {c : Column K} {rows : ℕ} {dual dual' : ℕ → K}
    (h : ∀ row < rows, dual row = dual' row) : c.reducedCost rows dual = c.reducedCost rows dual' :=
  congrArg (c.cost - ·) <| Finset.sum_congr rfl fun row hrow => by
    rw [h row (Finset.mem_range.mp hrow)]

namespace Program

variable (P : Program K)

/-- What one unit of the column at an index adds to a row. -/
def coefficient (row index : ℕ) : K := (P.columns[index]?.map fun c => c.coefficient row).getD 0

/-- The cost of one unit of the column at an index. -/
def cost (index : ℕ) : K := (P.columns[index]?.map Column.cost).getD 0

/-- The cost of given values of the variables. -/
def objective (x : ℕ → K) : K := ∑ j ∈ Finset.range P.columns.length, P.cost j * x j

variable [LinearOrder K]

/-- Values of the variables that meet all rows, none of them negative. -/
structure IsFeasible (x : ℕ → K) : Prop where
  nonneg : ∀ j < P.columns.length, 0 ≤ x j
  meets : ∀ row < P.rhs.length,
    ∑ j ∈ Finset.range P.columns.length, P.coefficient row j * x j = P.rhs.getD row 0

instance (x : ℕ → K) : Decidable (P.IsFeasible x) :=
  decidable_of_iff ((∀ j < P.columns.length, 0 ≤ x j) ∧ ∀ row < P.rhs.length,
      ∑ j ∈ Finset.range P.columns.length, P.coefficient row j * x j = P.rhs.getD row 0)
    ⟨fun h => ⟨h.1, h.2⟩, fun h => ⟨h.nonneg, h.meets⟩⟩

/-- Some values of the variables meet all rows. -/
def Feasible : Prop := ∃ x, P.IsFeasible x

/-- No values that meet all rows cost less than a certain amount. -/
def BoundedBelow : Prop := ∃ least, ∀ x, P.IsFeasible x → least ≤ P.objective x

/-- The program asks for something: values that meet all rows exist, and their cost is bounded. -/
structure Solvable : Prop where
  feasible : P.Feasible
  bounded : P.BoundedBelow

end Program

end OffshoreFlights.Lp
