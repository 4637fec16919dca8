import OffshoreFlights.DistanceTable
import OffshoreFlights.Error
import OffshoreFlights.LocationSet
import OffshoreFlights.Passengers

/-! Flight planning problems: a depot, platforms that need passengers, the distances between them,
the capacity of a helicopter and the range of a flight. A problem carries the proof that it obeys
the rules, so a value of the type `Problem` is a valid problem. -/

namespace OffshoreFlights

variable {α : Type} [Scalar α]

namespace Problem

/-- Distances in the two directions may differ by this much. -/
def symmetryTolerance : α := ((1 : Nat) : α) / ((1000000000 : Nat) : α)

/-- The first cell of a table, row after row, that is negative, infinite or undefined. -/
def badCell? (distances : DistanceTable α) : Option (Nat × Nat) :=
  (List.range distances.size).findSome? fun i => (List.range distances.size).findSome? fun j =>
    let d := distances.distance i j
    if Scalar.isFinite d = false ∨ d < 0 then some (i, j) else none

/-- The first location that is not in the place of its id, with that place. -/
def misplaced? (platforms : List (Platform α)) : Option (Platform α × Nat) :=
  platforms.zipIdx.find? fun (p, i) => p.id != i

/-- The first rule that the parts of a problem break. -/
def flaw? (platforms : List (Platform α)) (distances : DistanceTable α) (capacity : Nat)
    (range : α) : Option (Error α) :=
  if platforms.length < 2 then some .noPlatforms
  else if LocationSet.capacity < platforms.length then
    some (.tooManyPlatforms (platforms.length - 1) (LocationSet.capacity - 1))
  else if capacity = 0 then some .noSeats
  else if Scalar.isFinite range = false ∨ range ≤ 0 then some (.badRange range)
  else if distances.size ≠ platforms.length then
    some (.sizeMismatch platforms.length distances.size)
  else match misplaced? platforms with
    | some (p, place) => some (.badLayout (.misplaced place p.id))
    | none =>
      if (platforms.head?.map Platform.demand).getD 0 ≠ 0 then
        some (.badLayout .depotDemand)
      else if distances.zeroDiagonal = false ∨
          distances.symmetricWithin symmetryTolerance = false then
        some (.badLayout .notSymmetric)
      else match badCell? distances with
        | some (i, j) => some (.badLayout (.badEntry i j (distances.distance i j)))
        | none => none

end Problem

/-- A valid problem. Location 0 is the depot, and location `i` has id `i`. -/
structure Problem (α : Type) [Scalar α] where
  platforms : List (Platform α)
  distances : DistanceTable α
  capacity : Nat
  range : α
  sound : Problem.flaw? platforms distances capacity range = none

namespace Problem

/-- The problem with these parts, or the first rule that they break. -/
def ofDistances (platforms : List (Platform α)) (distances : DistanceTable α) (capacity : Nat)
    (range : α) : Except (Error α) (Problem α) :=
  match h : flaw? platforms distances capacity range with
  | some e => .error e
  | none => .ok ⟨platforms, distances, capacity, range, h⟩

/-- The problem with straight-line distances between its locations. -/
def ofPlatforms [SquareRoot α] (platforms : List (Platform α)) (capacity : Nat) (range : α) :
    Except (Error α) (Problem α) :=
  ofDistances platforms (.ofPlatforms platforms) capacity range

/-- The problem with given demands and distances, all of whose locations are at the origin. -/
def ofDemands (demands : List Nat) (distances : DistanceTable α) (capacity : Nat) (range : α) :
    Except (Error α) (Problem α) :=
  ofDistances (.depot :: demands.zipIdx.map fun (d, i) => ⟨i + 1, 0, 0, d⟩) distances capacity range

variable (p : Problem α)

/-- The number of platforms, the depot not counted. -/
def platformCount : Nat := p.platforms.length - 1

/-- The distance from location `i` to location `j`. -/
@[inline] def distance (i j : Nat) : α := p.distances.distance i j

/-- The demand of each location, the depot first. -/
def demands : List Nat := p.platforms.map Platform.demand

/-- The number of passengers that have to be flown. -/
def totalDemand : Nat := headcount p.demands

end Problem

end OffshoreFlights
