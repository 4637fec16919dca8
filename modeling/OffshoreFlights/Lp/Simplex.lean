import OffshoreFlights.Lp.Store
import OffshoreFlights.Number.Binary64

/-! The simplex method in exact rational arithmetic, for programs `min c x, A x = b, x ≥ 0`. A first
phase drives artificial variables, one for each row, to zero; a second one lowers the cost. The
entering and the leaving variable are those of least index, so no basis returns. -/

namespace OffshoreFlights.Lp

namespace Simplex

/-- A row of a tableau: its coefficients, with the right-hand side last. -/
abbrev Row := Array Rat

/-- A tableau in canonical form, with the variables of the program before the artificial ones. -/
structure Tableau where
  /-- The number of variables of the program. -/
  size : Nat
  rows : Array Row
  /-- The variable that each row determines. -/
  basis : Array Nat
  /-- The reduced costs, with the negative of the cost last. -/
  costs : Row

/-- `row - factor * pivot`. -/
def eliminate (row pivot : Row) (factor : Rat) : Row :=
  if factor == 0 then row
  else row.zipWith (fun a p => if p == 0 then a else a - factor * p) pivot

/-- Makes variable `j` the one that row `i` determines. -/
def pivot (t : Tableau) (i j : Nat) : Tableau :=
  let row := t.rows.getD i #[]
  let head := row.getD j 1
  let row := row.map fun a => if a == 0 then a else a / head
  { t with
    rows := t.rows.mapIdx fun k r => if k = i then row else eliminate r row (r.getD j 0)
    basis := t.basis.setIfInBounds i j
    costs := eliminate t.costs row (t.costs.getD j 0) }

/-- The first variable among the first `bound` ones that lowers the cost. -/
def entering? (t : Tableau) (bound : Nat) : Option Nat :=
  (List.range bound).find? fun j => decide (t.costs.getD j 0 < 0)

/-- The row that bounds variable `j` most tightly; of several, that of the least variable. -/
def leaving? (t : Tableau) (j : Nat) : Option Nat :=
  let tighter (best? : Option (Rat × Nat × Nat)) (i : Nat) : Option (Rat × Nat × Nat) :=
    let row := t.rows.getD i #[]
    let a := row.getD j 0
    if a ≤ 0 then best?
    else
      let candidate := (row.back?.getD 0 / a, t.basis.getD i 0, i)
      match best? with
      | none => some candidate
      | some best =>
        if candidate.1 < best.1 ∨ (candidate.1 = best.1 ∧ candidate.2.1 < best.2.1) then
          some candidate
        else best?
  ((List.range t.rows.size).foldl tighter none).map fun best => best.2.2

/-- How a phase ends. -/
inductive Phase where
  | optimal (t : Tableau)
  | unbounded
  | unfinished

/-- Pivots until no variable among the first `bound` ones lowers the cost. -/
def improve (bound : Nat) : (steps : Nat) → Tableau → Phase
  | 0, _ => .unfinished
  | steps + 1, t =>
    match entering? t bound with
    | none => .optimal t
    | some j =>
      match leaving? t j with
      | none => .unbounded
      | some i => improve bound steps (pivot t i j)

/-- The coefficient of a column in a row. -/
def coefficient (c : Column Rat) (row : Nat) : Rat :=
  (c.entries.filter fun (i, _) => i == row).foldl (fun sum (_, a) => sum + a) 0

/-- The sign that makes a right-hand side nonnegative. -/
def sign (b : Rat) : Rat := if b < 0 then -1 else 1

/-- The tableau of the first phase: each row determines its artificial variable, and the cost is
their sum. -/
def initial (P : Program Rat) : Tableau :=
  let n := P.columns.length
  let m := P.rhs.length
  let rows := (P.rhs.zipIdx.map fun (b, i) =>
    let s := sign b
    let entries := P.columns.map fun c => s * coefficient c i
    let artificial := (List.range m).map fun k => if k = i then (1 : Rat) else 0
    (entries ++ artificial ++ [s * b]).toArray).toArray
  let unreduced : List Rat := List.replicate n 0 ++ List.replicate m 1 ++ [0]
  let costs := rows.foldl (fun costs row => costs.zipWith (· - ·) row) unreduced.toArray
  ⟨n, rows, ((List.range m).map (n + ·)).toArray, costs⟩

/-- Takes artificial variables out of the basis where a variable of the program can take their
place. -/
def expel (t : Tableau) : Tableau :=
  (List.range t.rows.size).foldl (fun t i =>
    if t.basis.getD i 0 < t.size then t
    else
      match (List.range t.size).find? fun j => (t.rows.getD i #[]).getD j 0 != 0 with
      | some j => pivot t i j
      | none => t) t

/-- The tableau with the costs of the program in place of those of the first phase. -/
def withCosts (t : Tableau) (P : Program Rat) : Tableau :=
  let unreduced : List Rat := P.columns.map Column.cost ++ List.replicate (P.rhs.length + 1) 0
  let costOf (i : Nat) : Rat := unreduced.getD (t.basis.getD i 0) 0
  { t with
    costs := (List.range t.rows.size).foldl (fun costs i =>
      eliminate costs (t.rows.getD i #[]) (costOf i)) unreduced.toArray }

/-- The solution that an optimal tableau shows. The dual of a row is the negative of the reduced
cost of its artificial variable, with the sign of the row. -/
def solution (t : Tableau) (P : Program Rat) : Solution Rat where
  primal := (List.range t.size).map fun j =>
    match t.basis.findIdx? (· == j) with
    | some i => (t.rows.getD i #[]).back?.getD 0
    | none => 0
  duals := P.rhs.zipIdx.map fun (b, i) => -(sign b * t.costs.getD (t.size + i) 0)

/-- Solves a program. There are fewer bases than sets of variables, which bounds the steps. -/
def solve (P : Program Rat) : Except Failure (Solution Rat) :=
  let t := initial P
  let steps := Nat.pow 2 (P.columns.length + P.rhs.length)
  match improve (t.size + P.rhs.length) steps t with
  | .unbounded | .unfinished => .error .numericalError
  | .optimal t =>
    if t.costs.back?.getD 0 < 0 then .error .primalInfeasible
    else
      match improve t.size steps (withCosts (expel t) P) with
      | .unbounded => .error .dualInfeasible
      | .unfinished => .error .numericalError
      | .optimal t => .ok (solution t P)

/-- The program of the exact values of floats, if they are all finite. -/
def ofFloats? (P : Program Float) : Option (Program Rat) := do
  let rhs ← P.rhs.mapM Binary64.toRat?
  let columns ← P.columns.mapM fun c => do
    let cost ← Binary64.toRat? c.cost
    let entries ← c.entries.mapM fun (row, a) => (Binary64.toRat? a).map fun q => (row, q)
    return ⟨cost, entries⟩
  return ⟨rhs, columns⟩

/-- Solves a program of floats exactly, and rounds its solution. -/
def solveFloats (P : Program Float) : Except Failure (Solution Float) :=
  match ofFloats? P with
  | none => .error .numericalError
  | some program => do
    let s ← solve program
    return ⟨s.primal.map Binary64.ofRat, s.duals.map Binary64.ofRat⟩

end Simplex

/-- The solver by the simplex method, which keeps no state. -/
structure ExactSimplex where

instance : Solver ExactSimplex Float where
  solve t P := (Simplex.solveFloats P, t)

end OffshoreFlights.Lp
