import OffshoreFlights.Itinerary
import OffshoreFlights.Number.Decimal

/-! Flight plans: itineraries with the number of times that each is flown. -/

namespace OffshoreFlights

variable {α : Type} [Scalar α]

/-- An itinerary flown a fractional number of times. -/
structure FractionalFlight (α : Type) where
  itinerary : Itinerary α
  frequency : α

/-- The distance flown. -/
def FractionalFlight.cost (f : FractionalFlight α) : α := f.itinerary.tourLength * f.frequency

/-- An itinerary flown a whole number of times. -/
structure Flight (α : Type) where
  itinerary : Itinerary α
  frequency : Nat

/-- The distance flown. -/
def Flight.cost (f : Flight α) : α := f.itinerary.tourLength * (f.frequency : α)

/-- The locations that a flight serves, with the passengers served there. -/
def Flight.served (f : Flight α) : List (Nat × Nat) :=
  (f.itinerary.allocation.zipIdx.filter fun (w, _) => 0 < w).map fun (w, id) => (id, w)

/-- A flight in short: how often it is flown, how long its tour is and whom it serves. -/
structure FlightBrief (α : Type) where
  frequency : Nat
  tourLength : α
  passengers : List (Nat × Nat)

/-- The flights of a plan in the order in which they were fixed. -/
structure Plan (α : Type) where
  flights : List (Flight α)

namespace Plan

/-- The plan without flights. -/
def empty : Plan α := ⟨[]⟩

/-- The plan with one more flight at its end. -/
def push (plan : Plan α) (f : Flight α) : Plan α := ⟨plan.flights ++ [f]⟩

/-- The distance that all flights fly together. -/
def objective (plan : Plan α) : α := Scalar.sum (plan.flights.map Flight.cost)

/-- The number of passengers served at each of the first `locations` locations. -/
def served (plan : Plan α) (locations : Nat) : List Nat :=
  (List.range locations).map fun id =>
    headcount (plan.flights.map fun f => f.itinerary.servedAt id * f.frequency)

/-- By how many percent of a positive lower bound the plan exceeds it. -/
def gapPercent? (plan : Plan α) (bound : α) : Option α :=
  if bound ≤ 0 then none
  else some (((100 : Nat) : α) * (plan.objective - bound) / bound)

/-- Every flight in short. -/
def briefs (plan : Plan α) : List (FlightBrief α) :=
  plan.flights.map fun f => ⟨f.frequency, f.itinerary.tourLength, f.served⟩

end Plan

/-- Lengths are written with three decimal places. -/
def lengthText (x : Float) : String := Decimal.toPlaces 3 x

/-- The flight on one line: how often, how long, and the passengers of each platform served. -/
def Flight.text (f : Flight Float) : String :=
  let stops := (f.served.filter fun (id, _) => 0 < id).map fun (id, w) => s!" P{id}({w})"
  s!"{f.frequency} {lengthText f.itinerary.tourLength}" ++ String.join stops

/-- The distance of the plan, then a line for each flight. -/
def Plan.text (plan : Plan Float) : String :=
  s!"Solution with z = {lengthText plan.objective}\n" ++
    String.join (plan.flights.map fun f => f.text ++ "\n")

end OffshoreFlights
