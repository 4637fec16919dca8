import OffshoreFlights.Lp.Column
import OffshoreFlights.LocationSet
import OffshoreFlights.Passengers
import OffshoreFlights.Scalar

/-! Itineraries: the stops of a flight, the length of its tour, and how many passengers it serves at
each location. -/

namespace OffshoreFlights

/-- A closed tour with its passengers. `allocation` counts them by location id, the depot first. -/
structure Itinerary (α : Type) where
  stops : List Nat
  tourLength : α
  allocation : List Nat
deriving BEq

namespace Itinerary

variable {α : Type} [Scalar α]

/-- Fills the seats left, stop by stop, each with as many passengers as wait there. -/
def fill (demands : List Nat) : (seats : Nat) → (stops allocation : List Nat) → List Nat
  | _, [], allocation => allocation
  | seats, p :: rest, allocation =>
    let w := min seats (demands.getD p 0)
    fill demands (seats - w) rest (allocation.set p w)

/-- The itinerary that serves its stops in turn until the helicopter is full. -/
def firstServed (stops : List Nat) (tourLength : α) (demands : List Nat) (capacity : Nat) :
    Itinerary α :=
  ⟨stops, tourLength, fill demands capacity stops (List.replicate demands.length 0)⟩

/-- An itinerary whose stops may be past what a platform set holds. -/
def makeChecked (stops : List Nat) (tourLength : α) (allocation : List Nat) :
    Except Fault (Itinerary α) := do
  stops.forM LocationSet.checkId
  return ⟨stops, tourLength, allocation⟩

/-- `firstServed` for stops that may lie outside the list of demands. -/
def firstServedChecked (stops : List Nat) (tourLength : α) (demands : List Nat) (capacity : Nat) :
    Except Fault (Itinerary α) := do
  stops.forM fun p => if p < demands.length then .ok () else .error .outOfRange
  stops.forM LocationSet.checkId
  return firstServed stops tourLength demands capacity

variable (it : Itinerary α)

/-- The set of the stops. -/
def platforms : LocationSet := LocationSet.ofList it.stops

/-- The number of passengers served at a location. -/
def servedAt (id : Nat) : Nat := it.allocation.getD id 0

/-- The number of passengers on board. -/
def passengerCount : Nat := headcount it.allocation

/-- Nowhere are more passengers served than wait. -/
def fitsWithin (residual : List Nat) : Bool :=
  (it.allocation.zip residual).all fun (w, d) => decide (w ≤ d)

/-- The length of the tour less the worth of its passengers. -/
def reducedCost (duals : List α) : α :=
  (it.allocation.zip duals).foldl (fun cost (w, y) => cost - (w : α) * y) it.tourLength

/-- The column of the itinerary in the master program, where location `i + 1` has row `i`. -/
def column : Lp.Column α where
  cost := it.tourLength
  entries :=
    (it.allocation.tail.zipIdx.filter fun (w, _) => 0 < w).map fun (w, row) => (row, (w : α))

end Itinerary

end OffshoreFlights
