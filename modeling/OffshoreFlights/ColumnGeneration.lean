import OffshoreFlights.Pricing.Scan

/-! Column generation. The master program is solved over the itineraries found so far, and a pricing
scan adds itineraries that can lower its objective, until a scan finds none. -/

namespace OffshoreFlights

/-- Column generation between two iterations. -/
structure ColumnGeneration (L α : Type) where
  /-- The number of iterations gone through. -/
  iterations : Nat
  columnsAdded : Nat
  /-- The platforms where somebody waits, in the order of the last scan. -/
  order : List Nat
  state : SolverState L α

namespace ColumnGeneration

variable {L α : Type} [Scalar α] [Lp.Backend L α]

/-- Why column generation ended. -/
inductive Ending where
  /-- A scan found no itinerary to add. -/
  | converged
  /-- The limit on iterations was reached. -/
  | limitReached
deriving DecidableEq, Repr

/-- What column generation has found: the last solution of the master program, and how it came
about. -/
structure Outcome (α : Type) where
  ending : Ending
  iterations : Nat
  objective : α
  flights : List (FractionalFlight α)
  duals : List α
  columnsAdded : Nat

/-- The platforms where somebody waits. -/
def candidates (p : Problem α) (residual : List Nat) : List Nat :=
  ((List.range p.platformCount).map (· + 1)).filter fun j => 0 < residual.getD j 0

/-- Column generation before the first iteration. -/
def start (p : Problem α) (residual : List Nat) (state : SolverState L α) : ColumnGeneration L α :=
  ⟨0, 0, candidates p residual, state⟩

/-- The outcome when the last solution of the master program is final. -/
def outcome (g : ColumnGeneration L α) (settings : Settings α) (ending : Ending)
    (duals : List α) : Outcome α where
  ending := ending
  iterations := g.iterations
  objective := g.state.master.objective
  flights := g.state.master.flightsAbove settings.tolerance
  duals := duals
  columnsAdded := g.columnsAdded

/-- Ends at the limit: solves the master program over all columns, the last ones included. -/
def endAtLimit (g : ColumnGeneration L α) (settings : Settings α) :
    Except (Error α) (Outcome α) × SolverState L α :=
  let (result, master) := g.state.master.solve
  let g := { g with state := { g.state with master } }
  (result.map fun _ => g.outcome settings .limitReached master.duals, g.state)

/-- The terms of the scan that follows a solution of the master program: its dual values, and the
platforms in their order. -/
def terms (g : ColumnGeneration L α) (p : Problem α) (settings : Settings α) (residual : List Nat)
    (master : MasterProgram L α) : Pricing.Terms α :=
  ⟨p, settings, residual, master.duals, Pricing.byFallingDual master.duals g.order⟩

/-- Column generation after one more iteration, which ended with a scan on the given terms. -/
def next (g : ColumnGeneration L α) (terms : Pricing.Terms α) (scan : Pricing.Scan L α) :
    ColumnGeneration L α :=
  ⟨g.iterations + 1, g.columnsAdded + scan.added, terms.candidates, scan.state⟩

/-- Goes through iterations: the one now due and at most `left` more. Each solves the master program
and scans at its dual values. -/
def iterate (p : Problem α) (settings : Settings α) (residual : List Nat) (left : Nat)
    (g : ColumnGeneration L α) : Except (Error α) (Outcome α) × SolverState L α :=
  match g.state.master.solve with
  | (.error e, master) => (.error e, { g.state with master })
  | (.ok _, master) =>
    let terms := g.terms p settings residual master
    let scan := terms.scan { g.state with master }
    let g := g.next terms scan
    if scan.added = 0 then (.ok (g.outcome settings .converged terms.duals), g.state)
    else
      match left with
      | left + 1 => iterate p settings residual left g
      | 0 => g.endAtLimit settings

/-- Generates columns for the residual demands until no itinerary lowers the objective, or until the
limit on iterations is reached. -/
def generate (p : Problem α) (settings : Settings α) (residual : List Nat)
    (state : SolverState L α) : Except (Error α) (Outcome α) × SolverState L α :=
  match state.master.resetChecked p residual with
  | .error fault => (.error (.fault fault), state)
  | .ok master =>
    iterate p settings residual (settings.iterationLimit - 1)
      (start p residual { state with master })

end ColumnGeneration

end OffshoreFlights
