import OffshoreFlights.ColumnGeneration
import OffshoreFlights.FlightChooser

/-! Rounding of relaxed plans. In each round the relaxation for the residual demands is solved, one
of its flights is fixed with a whole frequency, and its passengers are taken off the demands, until
all are served. -/

namespace OffshoreFlights

variable {L S α : Type} [Scalar α] [Lp.Backend L α] [FlightChooser S α]

/-- A plan with the objective value of the first relaxation and the number of rounds. -/
structure WholePlan (α : Type) where
  plan : Plan α
  bound : α
  rounds : Nat

/-- By how many percent the plan exceeds the bound of the relaxation. -/
def WholePlan.gapPercent? (r : WholePlan α) : Option α := r.plan.gapPercent? r.bound

/-- The most often that an itinerary can be flown without serving more passengers than wait, or once
if it serves nobody. -/
def Itinerary.admissibleFrequency (it : Itinerary α) (residual : List Nat) : Nat :=
  (((it.allocation.zip residual).filter fun (w, _) => 0 < w).map fun (w, d) => d / w).min?.getD 1

/-- The whole frequency for which a flight is fixed: its frequency rounded down, as far as the
residual demands admit, and once at least. -/
def FractionalFlight.wholeFrequency (f : FractionalFlight α) (residual : List Nat)
    (tolerance : α) : Nat :=
  let rounded := max (Scalar.floorWord (f.frequency + tolerance)) 1
  max (min rounded (f.itinerary.admissibleFrequency residual)) 1

/-- The state of the rounding between rounds. -/
structure Rounding (L S α : Type) where
  residual : List Nat
  /-- The number of passengers that have not been served. -/
  remaining : Nat
  plan : Plan α
  bound : α
  rounds : Nat
  solver : SolverState L α
  chooser : S

namespace Rounding

/-- The state before the first round. -/
def start (p : Problem α) (solver : SolverState L α) (chooser : S) : Rounding L S α :=
  ⟨p.demands, p.totalDemand, .empty, 0, 0, solver, chooser⟩

/-- The flights that can be fixed: they carry somebody, and nowhere more than wait. -/
def candidates (residual : List Nat) (flights : List (FractionalFlight α)) :
    List (FractionalFlight α) :=
  flights.filter fun f => decide (0 < f.itinerary.passengerCount) && f.itinerary.fitsWithin residual

/-- Fixes a flight: it joins the plan, its passengers are served, and itineraries that no longer fit
are dropped. -/
def fix (settings : Settings α) (r : Rounding L S α) (chosen : FractionalFlight α) :
    Rounding L S α :=
  let frequency := chosen.wholeFrequency r.residual settings.tolerance
  let taken (i : Nat) := chosen.itinerary.servedAt i * frequency
  let residual := r.residual.mapIdx fun i d => d - taken i
  { r with
    residual := residual
    remaining := r.remaining - chosen.itinerary.passengerCount * frequency
    plan := r.plan.push ⟨chosen.itinerary, frequency⟩
    solver := { r.solver with master := (r.solver.master.removeUnfit residual).2 } }

/-- One round, and the error that ends the rounding if it meets one. -/
def round (p : Problem α) (settings : Settings α) (r : Rounding L S α) :
    Option (Error α) × Rounding L S α :=
  match ColumnGeneration.generate p settings r.residual r.solver with
  | (.error e, solver) => (some e, { r with solver })
  | (.ok outcome, solver) =>
    let bound := if r.rounds = 0 then outcome.objective else r.bound
    let r := { r with solver, bound, rounds := r.rounds + 1 }
    let choice := candidates r.residual outcome.flights
    if choice = [] then (some (.stalled r.remaining), r)
    else
      match FlightChooser.choose r.chooser choice with
      | (.error fault, chooser) => (some (.fault fault), { r with chooser })
      | (.ok index, chooser) =>
        let r := { r with chooser }
        match choice[index]? with
        | none => (some (.noSuchFlight index choice.length), r)
        | some chosen => (none, r.fix settings chosen)

/-- A flight is fixed once at least. -/
theorem one_le_wholeFrequency (f : FractionalFlight α) (residual : List Nat) (tolerance : α) :
    1 ≤ f.wholeFrequency residual tolerance := Nat.le_max_right ..

omit [Scalar α] in
theorem passengerCount_pos_of_mem_candidates {residual : List Nat}
    {flights : List (FractionalFlight α)} {f : FractionalFlight α}
    (h : f ∈ candidates residual flights) :
    0 < f.itinerary.passengerCount := by
  simp only [candidates, List.mem_filter, Bool.and_eq_true, decide_eq_true_eq] at h
  exact h.2.1

/-- A round without an error serves somebody. -/
theorem remaining_round_lt {p : Problem α} {settings : Settings α} {r r' : Rounding L S α}
    (hr : r.remaining ≠ 0) (h : r.round p settings = (none, r')) : r'.remaining < r.remaining := by
  unfold round at h
  split at h
  · simp at h
  · dsimp only at h
    split at h
    · simp at h
    · split at h
      · simp at h
      · split at h
        · simp at h
        · rename_i chosen hc
          have hmem := List.mem_of_getElem? hc
          have hpos := passengerCount_pos_of_mem_candidates hmem
          injection h with _ h
          subst h
          simp only [fix]
          exact Nat.sub_lt (Nat.pos_of_ne_zero hr)
            (Nat.mul_pos hpos (one_le_wholeFrequency _ _ _))

/-- Goes through rounds until all passengers are served or an error ends the rounding. -/
def finish (p : Problem α) (settings : Settings α) (r : Rounding L S α) :
    Option (Error α) × Rounding L S α :=
  if _ : r.remaining = 0 then (none, r)
  else
    match _ : r.round p settings with
    | (some e, r') => (some e, r')
    | (none, r') => finish p settings r'
termination_by r.remaining
decreasing_by exact remaining_round_lt ‹_› ‹_›

/-- A whole plan found by rounding, with the states in which it leaves solver and chooser. -/
def wholePlan (p : Problem α) (settings : Settings α) (solver : SolverState L α) (chooser : S) :
    Except (Error α) (WholePlan α) × SolverState L α × S :=
  let (error?, r) := finish p settings (start p solver chooser)
  let result := match error? with
    | some e => .error e
    | none => .ok ⟨r.plan, r.bound, r.rounds⟩
  (result, r.solver, r.chooser)

end Rounding

end OffshoreFlights
