/-! The subsets of `0, …, k - 1` in lexicographic order of their ascending lists, one after another.
The caller says of each subset whether its extensions are wanted too. -/

namespace OffshoreFlights

/-- A walk through the subsets. -/
structure SubsetWalk where
  /-- The number of elements to choose from. -/
  k : Nat
  /-- The subset reached, its greatest element first; none before the first step and after the
  last. -/
  chosen : List Nat
  exhausted : Bool
deriving DecidableEq

namespace SubsetWalk

/-- The walk before its first step. Of nothing there is no nonempty subset. -/
def start (k : Nat) : SubsetWalk := ⟨k, [], k == 0⟩

/-- The subset reached, in ascending order. -/
def current (w : SubsetWalk) : List Nat := w.chosen.reverse

/-- The next subset that does not extend a given one, both with their greatest elements first: the
last element is raised, or dropped if it is the greatest there is. -/
def raise? (k : Nat) : List Nat → Option (List Nat)
  | [] => none
  | tail :: rest => if tail + 1 < k then some ((tail + 1) :: rest) else raise? k rest

/-- The subset after the one reached: its least extension if extensions are wanted and there is one,
and else the next subset that does not extend it. -/
def successor? (w : SubsetWalk) (extend : Bool) : Option (List Nat) :=
  match w.chosen with
  | [] => some [0]
  | tail :: rest =>
    if extend = true ∧ tail + 1 < w.k then some ((tail + 1) :: tail :: rest)
    else raise? w.k (tail :: rest)

/-- Steps to the next subset. `extend` tells whether extensions of the subset reached are wanted; it
says nothing before the first step. -/
def next (w : SubsetWalk) (extend : Bool) : Option (List Nat) × SubsetWalk :=
  if w.exhausted then (none, w)
  else match w.successor? extend with
    | some chosen => (some chosen.reverse, { w with chosen })
    | none => (none, { w with chosen := [], exhausted := true })

/-- The number of steps after which every walk has ended. -/
def stepBound (k : Nat) : Nat := Nat.pow 2 k

end SubsetWalk

end OffshoreFlights
