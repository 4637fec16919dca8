import OffshoreFlights.Error
import OffshoreFlights.Lp.Column

/-! What planning asks of an LP backend: it holds a program `min c x, A x = b, x ≥ 0` by columns,
takes changes to it, solves it, and tells the last solution. -/

namespace OffshoreFlights.Lp

/-- A holder of a linear program whose rows are fixed in number. -/
class Backend (L : Type) (α : outParam Type) where
  rowCount : L → Nat
  setRhs : L → (row : Nat) → (value : α) → L
  addColumn : L → Column α → L
  replaceColumn : L → (index : Nat) → Column α → L
  /-- Deletes the columns at the given indices; later ones move up. -/
  deleteColumns : L → (indices : List Nat) → L
  /-- Solves the program, or tells why it is not solved. -/
  solve : L → Except (Error α) Unit × L
  /-- The objective value of the last solution. -/
  objective : L → α
  /-- The value of a column's variable in the last solution. -/
  primal : L → (index : Nat) → α
  /-- The dual value of a row in the last solution. -/
  dual : L → (row : Nat) → α

/-- The elements of a list without those at the given indices, in order. -/
def eraseIndices {β : Type} (indices : List Nat) (xs : List β) : List β :=
  (xs.zipIdx.filter fun (_, i) => !indices.contains i).map Prod.fst

@[simp] theorem eraseIndices_nil {β : Type} (indices : List Nat) :
    eraseIndices indices ([] : List β) = [] := rfl

end OffshoreFlights.Lp
