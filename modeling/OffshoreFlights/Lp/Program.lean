import OffshoreFlights.Error
import OffshoreFlights.Lp.Column

/-! Linear programs `min c x, A x = b, x ≥ 0` by columns, and their reduction by rows that force
their columns to zero. A row with the right-hand side zero and no negative coefficient can only be
met when every column with a positive coefficient there is zero, so the row and those columns are
left out. -/

namespace OffshoreFlights.Lp

/-- A linear program: its right-hand sides and its columns. -/
structure Program (α : Type) where
  rhs : List α
  columns : List (Column α)

/-- Values of the variables and duals of the rows. -/
structure Solution (α : Type) where
  primal : List α
  duals : List α

namespace Program

variable {α : Type} [Scalar α] (P : Program α)

/-- Whether a row forces its columns to zero. -/
def forcesZero (row : Nat) (b : α) : Bool :=
  b == 0 && P.columns.all fun c => c.entries.all fun (i, a) => !(i == row && decide (a < 0))

/-- For each row, whether it is left out. -/
def leftOut : List Bool := P.rhs.zipIdx.map fun (b, row) => P.forcesZero row b

/-- Whether an entry stands in a row that forces its column to zero. -/
def blocks (leftOut : List Bool) (entry : Nat × α) : Bool :=
  leftOut.getD entry.1 false && decide (0 < entry.2)

/-- The rows that stay, in order. -/
def active : List Nat := (P.leftOut.zipIdx.filter fun (out, _) => !out).map Prod.snd

/-- The columns that stay, each with its index. -/
def kept : List (Column α × Nat) :=
  let leftOut := P.leftOut
  P.columns.zipIdx.filter fun (c, _) => !c.entries.any (blocks leftOut)

/-- Whether the rows that the reduction looks at exist. It looks at all negative entries of a
column, and at the others up to the first that forces the column to zero. -/
def rowsExist : Bool :=
  let leftOut := P.leftOut
  let exists_ (entry : Nat × α) := decide (entry.1 < P.rhs.length)
  P.columns.all fun c =>
    (c.entries.filter fun (_, a) => decide (a < 0)).all exists_ &&
      (c.entries.takeWhile fun entry => !blocks leftOut entry).all exists_

/-- A column with the entries of the active rows only, numbered among these. -/
def restrict (active : List Nat) (c : Column α) : Column α where
  cost := c.cost
  entries := c.entries.filterMap fun (row, a) => (active.idxOf? row).map fun i => (i, a)

/-- The program of the active rows and the kept columns. -/
def reduced : Program α :=
  let active := P.active
  { rhs := active.map fun row => P.rhs.getD row 0
    columns := P.kept.map fun (c, _) => restrict active c }

/-- The verdict on a program of which no row or no column stays: without rows, zero is a solution or
a column of negative cost has no bound; without columns, the rows are not met. -/
def verdict? : Option (Except Failure Unit) :=
  if P.active = [] then
    match P.kept.find? fun (c, _) => decide (c.cost < 0) with
    | some (_, j) => some (.error (.freeColumn j))
    | none => some (.ok ())
  else if P.kept.isEmpty then some (.error .noCover)
  else none

/-- The values of all columns, from those of the kept ones; a value below zero counts as zero, and
so does that of a column left out. -/
def spreadPrimal (primal : List α) : List α :=
  let kept := P.kept.map Prod.snd
  (List.range P.columns.length).map fun j =>
    match kept.idxOf? j with
    | some k =>
      let x := primal.getD k 0
      if 0 < x then x else 0
    | none => 0

/-- The duals of all rows, from those of the active ones; a row left out has dual zero. -/
def spreadDuals (duals : List α) : List α :=
  let active := P.active
  (List.range P.rhs.length).map fun row =>
    match active.idxOf? row with
    | some i => duals.getD i 0
    | none => 0

/-- The cost of given values of all columns, summed over the kept ones. -/
def keptCost (primal : List α) : α :=
  Scalar.sum (P.kept.map fun (c, j) => c.cost * primal.getD j 0)

end Program

end OffshoreFlights.Lp
