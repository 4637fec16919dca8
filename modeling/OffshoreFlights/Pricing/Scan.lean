import OffshoreFlights.MasterProgram
import OffshoreFlights.Pricing.SubsetWalk
import OffshoreFlights.Settings
import OffshoreFlights.Tour.Memory

/-! Pricing scans. The dual values of the master program say what a passenger of each platform is
worth. A scan goes through the sets of platforms where somebody waits, and adds to the master
program the itineraries that earn more than they cost. A set that is beyond the range or fills the
helicopter is not extended. -/

namespace OffshoreFlights

/-- What column generation works on: the master program and the known tour lengths. -/
structure SolverState (L α : Type) where
  master : MasterProgram L α
  memory : TourMemory α

variable {L α : Type} [Scalar α] [Lp.Backend L α]

/-- The search for the shortest tour over the distances of a problem. -/
def Problem.shortestTour (p : Problem α) (stops : List Nat) (bound : α) : Id α :=
  Tour.shortest (m := Id) p.distance stops bound

/-- The length of the shortest tour, remembered. -/
def SolverState.tourLength (st : SolverState L α) (p : Problem α) (stops : List Nat) (bound : α) :
    α × SolverState L α :=
  let (length, memory) := Id.run (st.memory.tourLength p.shortestTour stops bound)
  (length, { st with memory })

namespace Pricing

/-- Platforms by falling dual value; those with the same value keep their order. -/
def byFallingDual (duals : List α) (platforms : List Nat) : List Nat :=
  platforms.mergeSort fun a b =>
    (Scalar.compareTotal (duals.getD b 0) (duals.getD a 0)).isLE

/-- The terms of one scan. -/
structure Terms (α : Type) [Scalar α] where
  problem : Problem α
  settings : Settings α
  residual : List Nat
  duals : List α
  /-- The platforms to choose from, in the order in which stops are served. -/
  candidates : List Nat

/-- A scan under way. -/
structure Scan (L α : Type) where
  walk : SubsetWalk
  /-- Whether larger sets that begin with the one reached are of use. -/
  extend : Bool
  /-- The number of itineraries added. -/
  added : Nat
  state : SolverState L α

namespace Terms

variable (t : Terms α)

/-- The platforms at the given positions of the candidates. -/
def stopsAt (positions : List Nat) : List Nat := positions.map fun i => t.candidates.getD i 0

/-- Whether an itinerary earns more than it costs. -/
def improves (it : Itinerary α) : Bool :=
  decide (it.reducedCost t.duals < -t.settings.tolerance)

/-- The itinerary that serves its stops in turn. -/
def itinerary (stops : List Nat) (tourLength : α) : Itinerary α :=
  .firstServed stops tourLength t.residual t.problem.capacity

/-- The number of passengers who wait at the stops. -/
def waiting (stops : List Nat) : Nat := headcount (stops.map fun i => t.residual.getD i 0)

/-- Looks at the set at the given positions. Beyond the range, neither it nor a larger set is of
use. No larger one is when all seats are taken already. -/
def appraise (positions : List Nat) (scan : Scan L α) : Scan L α :=
  let stops := t.stopsAt positions
  let range := t.problem.range
  let (length, state) := scan.state.tourLength t.problem stops (range + t.settings.rangeSlack)
  if range < length then { scan with extend := false, state }
  else
    let extend := decide (t.waiting stops < t.problem.capacity)
    let it := t.itinerary stops length
    if t.improves it then
      let (isNew, master) := state.master.add it
      { scan with extend, added := scan.added + isNew.toNat, state := { state with master } }
    else { scan with extend, state }

/-- Scans on until enough itineraries are added or the sets are exhausted. -/
def scanFrom : (steps : Nat) → Scan L α → Scan L α
  | 0, scan => scan
  | steps + 1, scan =>
    if scan.added < t.settings.columnsPerIteration then
      match scan.walk.next scan.extend with
      | (none, walk) => { scan with walk }
      | (some positions, walk) => scanFrom steps (t.appraise positions { scan with walk })
    else scan

/-- The whole scan from a state. -/
def scan (state : SolverState L α) : Scan L α :=
  let k := t.candidates.length
  t.scanFrom (SubsetWalk.stepBound k) ⟨.start k, true, 0, state⟩

end Terms

end Pricing

end OffshoreFlights
