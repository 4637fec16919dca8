import OffshoreFlights.Tour.Arrangement
import OffshoreFlights.Tour.Length

/-! The shortest closed tour through a set of locations, as far as it is shorter than a bound. The
search goes through the arrangements of the set in lexicographic order. A tour and its reverse have
the same length, so only arrangements whose first location is below their last are measured. A way
that, with the least distance from the depot added for the way back, is not shorter than the best
tour is given up, and with it all arrangements that begin in the same way. -/

namespace OffshoreFlights.Tour

variable {α : Type} [Scalar α] {m : Type → Type} [Monad m]

/-- What came of measuring an arrangement. -/
inductive Measure (α : Type) where
  /-- The way up to this position is too long already. -/
  | givenUp (position : Nat)
  /-- The length of the closed tour. -/
  | closed (length : α)

/-- Goes on along an arrangement from the location `place` at the position before `position`. -/
@[specialize] def measureFrom (distance : Nat → Nat → m α) (wayBack best : α) (position : Nat)
    (length : α) (place : Nat) : (order : List Nat) → m (Measure α)
  | [] => do
    let leg ← distance place 0
    return .closed (length + leg)
  | p :: rest => do
    let leg ← distance place p
    let length := length + leg
    if best ≤ length + wayBack then
      return .givenUp position
    else
      measureFrom distance wayBack best (position + 1) length p rest

/-- Whether an arrangement is measured: its first location is below its last, or is its last. -/
def counts : List Nat → Bool
  | [] => false
  | [_] => true
  | a :: b :: rest => decide (a < (b :: rest).getLast (List.cons_ne_nil b rest))

/-- Measures an arrangement if it counts. Gives the length of the best tour after it, and the
arrangement from which the search steps on. -/
@[specialize] def probe (distance : Nat → Nat → m α) (wayBack best : α) (s : List Nat) :
    m (α × List Nat) := do
  match s with
  | [] => return (best, s)
  | a :: rest =>
    if counts (a :: rest) then
      let first ← distance 0 a
      match ← measureFrom distance wayBack best 1 first a rest with
      | .givenUp position => return (best, Arrangement.lastAgreeing s position)
      | .closed length => return (if length < best then length else best, s)
    else
      return (best, s)

/-- Searches from the arrangement `s` on. Each step leads to a greater arrangement, so as many steps
as there are arrangements suffice. -/
@[specialize] def search (distance : Nat → Nat → m α) (wayBack : α) :
    (steps : Nat) → (s : List Nat) → (best : α) → m α
  | 0, _, best => return best
  | steps + 1, s, best => do
    let (best, s) ← probe distance wayBack best s
    match Arrangement.next s with
    | (true, s) => search distance wayBack steps s best
    | (false, _) => return best

/-- The length of the shortest closed tour from the depot through `stops`, or `bound` if no tour is
shorter. No stops need no tour. -/
@[specialize] def shortest (distance : Nat → Nat → m α) (stops : List Nat) (bound : α) : m α :=
  if stops = [] then return 0
  else do
    let s := stops.mergeSort
    let wayBack ← nearest? distance 0 s
    search distance (wayBack.getD 0) (Arrangement.count s.length) s bound

end OffshoreFlights.Tour
