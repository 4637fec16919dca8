import OffshoreFlights.Lp.Backend

/-! A record of what an algorithm asks of an LP backend, whatever the backend. -/

namespace OffshoreFlights.Lp

/-- A change to the program, or the request to solve it. -/
inductive Request (α : Type) where
  | setRhs (row : Nat) (value : α)
  | addColumn (column : Column α)
  | replaceColumn (index : Nat) (column : Column α)
  | deleteColumns (indices : List Nat)
  | solve
deriving DecidableEq

/-- A backend with the requests that it has received, the latest first. -/
structure Recorded (L α : Type) where
  backend : L
  requests : List (Request α)

namespace Recorded

variable {L α : Type}

/-- A backend of which nothing has been asked. -/
def start (backend : L) : Recorded L α := ⟨backend, []⟩

/-- The requests since the record was last cleared, in order. -/
def record (r : Recorded L α) : List (Request α) := r.requests.reverse

/-- Forgets the requests received so far. -/
def clearRecord (r : Recorded L α) : Recorded L α := { r with requests := [] }

instance [Backend L α] : Backend (Recorded L α) α where
  rowCount r := Backend.rowCount r.backend
  setRhs r row value := ⟨Backend.setRhs r.backend row value, .setRhs row value :: r.requests⟩
  addColumn r column := ⟨Backend.addColumn r.backend column, .addColumn column :: r.requests⟩
  replaceColumn r index column :=
    ⟨Backend.replaceColumn r.backend index column, .replaceColumn index column :: r.requests⟩
  deleteColumns r indices :=
    ⟨Backend.deleteColumns r.backend indices, .deleteColumns indices :: r.requests⟩
  solve r :=
    let (result, backend) := Backend.solve r.backend
    (result, ⟨backend, .solve :: r.requests⟩)
  objective r := Backend.objective r.backend
  primal r index := Backend.primal r.backend index
  dual r row := Backend.dual r.backend row

end Recorded

end OffshoreFlights.Lp
