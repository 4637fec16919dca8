/-! Columns of a linear program. -/

namespace OffshoreFlights.Lp

/-- A column: the cost of one unit of its variable, and for some rows what one unit adds there. -/
structure Column (α : Type) where
  cost : α
  entries : List (Nat × α)
deriving DecidableEq

end OffshoreFlights.Lp
