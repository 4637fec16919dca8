import OffshoreFlights.LocationSet
import OffshoreFlights.Tour.Shortest
import Std.Data.HashMap

/-! Tour lengths that searches have found, by the set of locations. A search below a bound finds the
shortest tour, or that no tour is shorter than the bound. The memory keeps which, so that a later
question about the same set is answered for any bound that what is known decides. -/

namespace OffshoreFlights

/-- What is known about the tours through a set of locations. -/
inductive TourFact (α : Type) where
  /-- The length of the shortest tour. -/
  | shortest (length : α)
  /-- No tour is shorter than this. -/
  | noneBelow (bound : α)

/-- The known tours, with counts of the questions, of those answered from memory and of those that
took a search. -/
structure TourMemory (α : Type) where
  facts : Std.HashMap LocationSet (TourFact α)
  questions : Nat
  recalled : Nat
  searches : Nat

namespace TourMemory

variable {α : Type} [Scalar α]

/-- The memory that knows nothing. -/
def empty : TourMemory α := ⟨∅, 0, 0, 0⟩

/-- The answer to a question about a set, if what is known decides it. -/
def decided? (known : Option (TourFact α)) (bound : α) : Option α :=
  match known with
  | some (.shortest length) => some (Scalar.lesser length bound)
  | some (.noneBelow least) => if bound ≤ least then some bound else none
  | none => none

/-- What a search below `bound` teaches. -/
def lesson (bound found : α) : TourFact α :=
  if found < bound then .shortest found else .noneBelow bound

/-- The length of the shortest tour through `stops`, or `bound` if no tour is shorter: from memory,
or else by the search given, whose result is remembered. -/
@[specialize] def tourLength {m : Type → Type} [Monad m] (shortest : List Nat → α → m α)
    (memory : TourMemory α) (stops : List Nat) (bound : α) : m (α × TourMemory α) :=
  let key := LocationSet.ofList stops
  let memory := { memory with questions := memory.questions + 1 }
  match decided? memory.facts[key]? bound with
  | some length => return (length, { memory with recalled := memory.recalled + 1 })
  | none => do
    let found ← shortest stops bound
    return (found, { memory with
      searches := memory.searches + 1
      facts := memory.facts.insert key (lesson bound found) })

/-- `tourLength` over a table of distances that may not cover all stops. -/
def tourLengthChecked (distances : DistanceTable α) (memory : TourMemory α) (stops : List Nat)
    (bound : α) : Except Fault (α × TourMemory α) := do
  stops.forM LocationSet.checkId
  memory.tourLength (Tour.shortest distances.distanceChecked) stops bound

/-- What is known about a set. -/
def get? (memory : TourMemory α) (key : LocationSet) : Option (TourFact α) := memory.facts[key]?

/-- The number of sets about which something is known. -/
def size (memory : TourMemory α) : Nat := memory.facts.size

/-- The share of the questions that memory answered. -/
def recallRate (memory : TourMemory α) : α :=
  if memory.questions = 0 then 0 else (memory.recalled : α) / (memory.questions : α)

end TourMemory

end OffshoreFlights
