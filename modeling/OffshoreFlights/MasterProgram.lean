import OffshoreFlights.Lp.Backend
import OffshoreFlights.Plan
import OffshoreFlights.Problem
import Std.Data.HashSet

/-! The restricted master program: one row for each platform, which must have its residual demand
served, and one column for each itinerary found so far. Its first columns fly to one platform each,
so that the rows can always be met. -/

namespace OffshoreFlights

/-- The itineraries of the master program, in step with the columns that an LP backend holds. -/
structure MasterProgram (L α : Type) where
  lp : L
  itineraries : List (Itinerary α)
  /-- The allocations of all itineraries. -/
  known : Std.HashSet (List Nat)
  /-- The number of columns, at the front, that fly to one platform each. -/
  basisSize : Nat

namespace MasterProgram

variable {L α : Type} [Scalar α] [Lp.Backend L α]

/-- The master program over a backend without columns. -/
def start (lp : L) : MasterProgram L α := ⟨lp, [], ∅, Lp.Backend.rowCount lp⟩

/-- The itinerary that flies to platform `j` alone, with as many passengers as it can take there,
and with one if nobody waits. -/
def basisItinerary (p : Problem α) (residual : List Nat) (j : Nat) : Itinerary α where
  stops := [j]
  tourLength := p.distance 0 j + p.distance j 0
  allocation := (List.replicate (p.platformCount + 1) 0).set j
    (max (min p.capacity (residual.getD j 0)) 1)

/-- Sets the row of platform `j` and its column at the front. -/
def resetRow (p : Problem α) (residual : List Nat) (m : MasterProgram L α) (j : Nat) :
    MasterProgram L α :=
  let lp := Lp.Backend.setRhs m.lp (j - 1) ((residual.getD j 0 : Nat) : α)
  let basis := basisItinerary p residual j
  if j - 1 < m.itineraries.length then
    { m with
      lp := Lp.Backend.replaceColumn lp (j - 1) basis.column
      itineraries := m.itineraries.set (j - 1) basis }
  else
    { m with
      lp := Lp.Backend.addColumn lp basis.column
      itineraries := m.itineraries ++ [basis] }

/-- Collects the allocations of all itineraries anew. -/
def collectKnown (m : MasterProgram L α) : MasterProgram L α :=
  { m with known := Std.HashSet.ofList (m.itineraries.map Itinerary.allocation) }

/-- Sets all rows to the residual demands, and the columns at the front to what can be flown to each
platform alone. Itineraries found before stay. -/
def reset (m : MasterProgram L α) (p : Problem α) (residual : List Nat) :
    MasterProgram L α :=
  (((List.range p.platformCount).map (· + 1)).foldl (resetRow p residual) m).collectKnown

/-- `reset` for residual demands that may not cover all platforms. -/
def resetChecked (m : MasterProgram L α) (p : Problem α) (residual : List Nat) :
    Except Fault (MasterProgram L α) :=
  if p.platformCount < residual.length then .ok (m.reset p residual) else .error .outOfRange

/-- Whether an itinerary with this allocation is present. -/
def contains (m : MasterProgram L α) (it : Itinerary α) : Bool :=
  m.known.contains it.allocation

/-- Adds an itinerary, unless one with its allocation is present, and tells whether it did. -/
def add (m : MasterProgram L α) (it : Itinerary α) : Bool × MasterProgram L α :=
  if m.contains it then (false, m)
  else (true, { m with
    lp := Lp.Backend.addColumn m.lp it.column
    itineraries := m.itineraries ++ [it]
    known := m.known.insert it.allocation })

/-- Solves the master program. -/
def solve (m : MasterProgram L α) : Except (Error α) Unit × MasterProgram L α :=
  let (result, lp) := Lp.Backend.solve m.lp
  (result, { m with lp })

/-- The objective value of the last solution. -/
def objective (m : MasterProgram L α) : α := Lp.Backend.objective m.lp

/-- The dual value of each location's row in the last solution. The depot gets zero. -/
def duals (m : MasterProgram L α) : List α :=
  0 :: (List.range m.basisSize).map (Lp.Backend.dual m.lp)

/-- The itineraries flown more than `tolerance` times in the last solution, in order. -/
def flightsAbove (m : MasterProgram L α) (tolerance : α) : List (FractionalFlight α) :=
  m.itineraries.zipIdx.filterMap fun (itinerary, j) =>
    let frequency := Lp.Backend.primal m.lp j
    if tolerance < frequency then some { itinerary, frequency } else none

/-- The places of the itineraries, those at the front apart, that carry more passengers somewhere
than wait there. -/
def unfit (m : MasterProgram L α) (residual : List Nat) : List Nat :=
  (m.itineraries.zipIdx.filter fun (it, j) =>
    decide (m.basisSize ≤ j) && !it.fitsWithin residual).map Prod.snd

/-- Deletes the itineraries that do not fit the residual demands, and tells how many they were. -/
def removeUnfit (m : MasterProgram L α) (residual : List Nat) : Nat × MasterProgram L α :=
  let unfit := m.unfit residual
  if unfit = [] then (0, m)
  else (unfit.length, collectKnown { m with
    lp := Lp.Backend.deleteColumns m.lp unfit
    itineraries := Lp.eraseIndices unfit m.itineraries })

end MasterProgram

end OffshoreFlights
