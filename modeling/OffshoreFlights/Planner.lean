import OffshoreFlights.Lp.Simplex
import OffshoreFlights.Rounding

/-! The planner: a problem and settings, with the tour lengths found so far for all its runs. -/

namespace OffshoreFlights

/-- A relaxed plan with the columns over which it was found. -/
structure RelaxedPlan (α : Type) where
  flights : List (FractionalFlight α)
  columns : List (Itinerary α)
  objective : α
  ending : ColumnGeneration.Ending
  iterations : Nat
  duals : List α

/-- A problem to plan for, and what is known about its tours. -/
structure Planner (α : Type) [Scalar α] where
  problem : Problem α
  settings : Settings α
  memory : TourMemory α

namespace Planner

variable {L S α : Type} [Scalar α] [Lp.Backend L α] [FlightChooser S α]

/-- The planner that knows no tours yet. -/
def start (problem : Problem α) (settings : Settings α) : Planner α := ⟨problem, settings, .empty⟩

/-- Forgets the tours. -/
def forget (planner : Planner α) : Planner α := { planner with memory := .empty }

/-- The state in which a run over a backend without columns starts. -/
def solver (planner : Planner α) (lp : L) : SolverState L α := ⟨.start lp, planner.memory⟩

/-- Finds a relaxed plan over a backend without columns. Gives the backend back as the run leaves
it, and the planner with the tours that it knows then, whether there is a plan or not. -/
def relaxedPlan (planner : Planner α) (lp : L) :
    Except (Error α) (RelaxedPlan α) × L × Planner α :=
  let (result, st) := ColumnGeneration.generate planner.problem planner.settings
    planner.problem.demands (planner.solver lp)
  let relaxed := result.map fun outcome =>
    { flights := outcome.flights
      columns := st.master.itineraries
      objective := outcome.objective
      ending := outcome.ending
      iterations := outcome.iterations
      duals := outcome.duals }
  (relaxed, st.master.lp, { planner with memory := st.memory })

/-- Finds a whole plan over a backend without columns. Gives backend and chooser back as the run
leaves them, and the planner with the tours that it knows then. -/
def wholePlan (planner : Planner α) (lp : L) (chooser : S) :
    Except (Error α) (WholePlan α) × L × S × Planner α :=
  let (result, st, chooser) :=
    Rounding.wholePlan planner.problem planner.settings (planner.solver lp) chooser
  (result, st.master.lp, chooser, { planner with memory := st.memory })

/-- A backend of its own, with a row for each platform. -/
def freshLp (planner : Planner Float) : Lp.Store Lp.ExactSimplex Float :=
  .ofRows ⟨⟩ planner.problem.platformCount

end Planner

end OffshoreFlights
