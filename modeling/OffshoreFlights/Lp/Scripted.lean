import OffshoreFlights.Lp.Backend
import OffshoreFlights.Scalar

/-! An LP backend that solves nothing: its answers are given in advance, one for each time that it
is asked to solve. So it can play any backend, one that errs included. -/

namespace OffshoreFlights.Lp

/-- An answer given in advance. -/
inductive Answer (α : Type) where
  | solution (objective : α) (primal duals : List α)
  | failure (reason : String)

/-- The columns held, the answers to come, and the last solution. -/
structure Scripted (α : Type) where
  rows : Nat
  columns : List (Column α)
  answers : List (Answer α)
  objective : α
  primal : List α
  duals : List α

namespace Scripted

variable {α : Type} [Scalar α]

/-- A backend without columns. -/
def start (rows : Nat) (answers : List (Answer α)) : Scripted α := ⟨rows, [], answers, 0, [], []⟩

/-- Takes the next answer. A failure leaves the last solution as it was. -/
def solve (lp : Scripted α) : Except (Error α) Unit × Scripted α :=
  match lp.answers with
  | [] => (.error (.lp (.other "script exhausted")), lp)
  | .failure reason :: answers => (.error (.lp (.other reason)), { lp with answers })
  | .solution objective primal duals :: answers =>
    (.ok (), { lp with answers, objective, primal, duals })

instance : Backend (Scripted α) α where
  rowCount lp := lp.rows
  setRhs lp _ _ := lp
  addColumn lp column := { lp with columns := lp.columns ++ [column] }
  replaceColumn lp index column := { lp with columns := lp.columns.set index column }
  deleteColumns lp indices :=
    { lp with
      columns := eraseIndices indices lp.columns
      primal := eraseIndices indices lp.primal }
  solve := solve
  objective lp := lp.objective
  primal lp index := lp.primal.getD index 0
  dual lp row := lp.duals.getD row 0

end Scripted

end OffshoreFlights.Lp
