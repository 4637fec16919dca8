import OffshoreFlights.Fault
import OffshoreFlights.Platform

/-! Square tables of distances. A table is stored row after row in one array, and a cell is found by
its place in that array, so a column past the last one reads on in the next row. -/

namespace OffshoreFlights

/-- The distances between `size` locations. -/
structure DistanceTable (α : Type) where
  size : Nat
  cells : Array α
  cells_size : cells.size = size * size

namespace DistanceTable

variable {α : Type} [Scalar α]

/-- The table of zeros. -/
def zeros (size : Nat) : DistanceTable α where
  size := size
  cells := Array.replicate (size * size) 0
  cells_size := Array.size_replicate

/-- A table of given cells, row after row, if their number fits. -/
def ofCells? (size : Nat) (cells : Array α) : Option (DistanceTable α) :=
  if h : cells.size = size * size then some ⟨size, cells, h⟩ else none

/-- The straight-line distances between locations, each taken once, from the earlier location to the
later one. -/
def ofPlatforms [SquareRoot α] (platforms : List (Platform α)) : DistanceTable α :=
  let n := platforms.length
  let location (i : Nat) : Platform α := platforms.getD i .depot
  let cell (k : Fin (n * n)) : α :=
    let i := k.val / n
    let j := k.val % n
    if i < j then (location i).distance (location j)
    else if j < i then (location j).distance (location i)
    else 0
  ⟨n, Array.ofFn cell, Array.size_ofFn⟩

/-- The distance from location `i` to location `j`, zero past the end of the table. -/
@[inline] def distance (m : DistanceTable α) (i j : Nat) : α := m.cells.getD (i * m.size + j) 0

/-- `distance` for locations that may lie past the end of the table. -/
@[inline] def distanceChecked (m : DistanceTable α) (i j : Nat) : Except Fault α :=
  match m.cells[i * m.size + j]? with
  | some d => .ok d
  | none => .error .outOfRange

/-- The table with one cell replaced. -/
def setChecked (m : DistanceTable α) (i j : Nat) (d : α) : Except Fault (DistanceTable α) :=
  if i * m.size + j < m.cells.size then
    .ok ⟨m.size, m.cells.setIfInBounds (i * m.size + j) d, by
      rw [Array.size_setIfInBounds, m.cells_size]⟩
  else .error .outOfRange

/-- The rows of the table. -/
def rows (m : DistanceTable α) : List (List α) :=
  (List.range m.size).map fun i => (List.range m.size).map fun j => m.distance i j

/-- No two opposite cells differ by more than `tolerance`. -/
def symmetricWithin (m : DistanceTable α) (tolerance : α) : Bool :=
  (List.range m.size).all fun i => (List.range m.size).all fun j =>
    !(decide (i < j) &&
      decide (tolerance < Scalar.magnitude (m.distance i j - m.distance j i)))

/-- Every location is at distance zero from itself. -/
def zeroDiagonal (m : DistanceTable α) : Bool :=
  (List.range m.size).all fun i => m.distance i i == 0

end DistanceTable

end OffshoreFlights
