import OffshoreFlights.DistanceTable

/-! Lengths of closed tours from the depot. Distances come from a function that may refuse to give
one: over a table that covers all locations it never does. -/

namespace OffshoreFlights.Tour

variable {α : Type} [Scalar α] {m : Type → Type} [Monad m]

/-- The length of a way so far with the rest of a closed tour: through `order`, then home. -/
@[specialize] def lengthFrom (distance : Nat → Nat → m α) (length : α) (place : Nat) :
    (order : List Nat) → m α
  | [] => do
    let leg ← distance place 0
    return length + leg
  | p :: rest => do
    let leg ← distance place p
    lengthFrom distance (length + leg) p rest

/-- The length of the closed tour from the depot through `order`. -/
@[specialize] def length (distance : Nat → Nat → m α) (order : List Nat) : m α :=
  lengthFrom distance 0 0 order

/-- The least distance from a location to one of `others`, if there is one. -/
@[specialize] def nearest? (distance : Nat → Nat → m α) (place : Nat) (others : List Nat) :
    m (Option α) := do
  let distances ← others.mapM (distance place)
  return Scalar.least? distances

end OffshoreFlights.Tour
