import OffshoreFlights.Scalar

/-! Locations in the plane: the depot and the platforms that crews fly to. -/

namespace OffshoreFlights

/-- A location with the number of passengers that it needs. -/
structure Platform (α : Type) where
  id : Nat
  x : α
  y : α
  demand : Nat
deriving BEq

namespace Platform

variable {α : Type} [Scalar α]

/-- Every flight starts and ends here. -/
def depot : Platform α := ⟨0, 0, 0, 0⟩

/-- The straight-line distance between two locations. -/
def distance [SquareRoot α] (p q : Platform α) : α :=
  let dx := p.x - q.x
  let dy := p.y - q.y
  SquareRoot.sqrt (dx * dx + dy * dy)

end Platform

end OffshoreFlights
