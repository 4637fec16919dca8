import OffshoreFlights.Lp.Backend
import OffshoreFlights.Lp.Program

/-! An LP backend that has its program solved: it reduces the program, gives what is left to a
solver, and spreads the solution over all columns and rows. -/

namespace OffshoreFlights.Lp

/-- A solver of linear programs, with a state that each solution may change. -/
class Solver (T : Type) (α : outParam Type) where
  solve : T → Program α → Except Failure (Solution α) × T

/-- A linear program with its solver and the last solution. A column added since has no value. -/
structure Store (T α : Type) where
  solver : T
  program : Program α
  primal : List α
  duals : List α
  objective : α

namespace Store

variable {T α : Type} [Scalar α]

/-- The program with these right-hand sides and no columns. -/
def ofRhs (solver : T) (rhs : List α) : Store T α :=
  ⟨solver, ⟨rhs, []⟩, [], List.replicate rhs.length 0, 0⟩

/-- The program with so many rows, all zero, and no columns. -/
def ofRows (solver : T) (rows : Nat) : Store T α := ofRhs solver (List.replicate rows 0)

variable (s : Store T α)

/-- The store with other right-hand sides. -/
def withRhs (rhs : List α) : Store T α := { s with program := { s.program with rhs } }

/-- The store with other columns. -/
def withColumns (columns : List (Column α)) : Store T α :=
  { s with program := { s.program with columns } }

def setRhs (row : Nat) (value : α) : Store T α := s.withRhs (s.program.rhs.set row value)

def addColumn (column : Column α) : Store T α := s.withColumns (s.program.columns ++ [column])

def replaceColumn (index : Nat) (column : Column α) : Store T α :=
  s.withColumns (s.program.columns.set index column)

/-- Deletes columns with their values; later ones move up. Indices past the end mean nothing. -/
def deleteColumns (indices : List Nat) : Store T α :=
  { s.withColumns (eraseIndices indices s.program.columns) with
    primal := eraseIndices indices s.primal }

/-- `setRhs` for a row that may not exist. -/
def setRhsChecked (row : Nat) (value : α) : Except Fault (Store T α) := do
  let _ ← elementAt s.program.rhs row
  return s.setRhs row value

/-- `replaceColumn` for a column that may not exist. -/
def replaceColumnChecked (index : Nat) (column : Column α) : Except Fault (Store T α) := do
  let _ ← elementAt s.program.columns index
  return s.replaceColumn index column

/-- The last solution replaced by zeros. -/
def cleared : Store T α :=
  { s with
    primal := List.replicate s.program.columns.length 0
    duals := List.replicate s.program.rhs.length 0
    objective := 0 }

/-- The last solution replaced by one of the reduced program. -/
def adopt (solution : Solution α) : Store T α :=
  let primal := s.program.spreadPrimal solution.primal
  { s with
    primal := primal
    duals := s.program.spreadDuals solution.duals
    objective := s.program.keptCost primal }

/-- Solves the program. Without a solution, the values and duals are zero. -/
def solve [Solver T α] : Except (Error α) Unit × Store T α :=
  if s.program.rowsExist then
    match s.program.verdict? with
    | some verdict => (verdict.mapError .lp, s.cleared)
    | none =>
      match Solver.solve s.solver s.program.reduced with
      | (.error failure, solver) => (.error (.lp failure), { s.cleared with solver })
      | (.ok solution, solver) => (.ok (), { s.adopt solution with solver })
  else (.error (.fault .outOfRange), s)

/-- The value of a column in the last solution, zero if it has none. -/
def primalAt (index : Nat) : α := s.primal.getD index 0

/-- The dual of a row in the last solution, zero if it has none. -/
def dualAt (row : Nat) : α := s.duals.getD row 0

instance [Solver T α] : Backend (Store T α) α where
  rowCount s := s.program.rhs.length
  setRhs := setRhs
  addColumn := addColumn
  replaceColumn := replaceColumn
  deleteColumns := deleteColumns
  solve s := s.solve
  objective s := s.objective
  primal := primalAt
  dual := dualAt

end Store

end OffshoreFlights.Lp
