/-! Faults: the ways a caller can break the terms on which an operation is offered. -/

namespace OffshoreFlights

/-- A use of an operation outside its domain. -/
inductive Fault where
  /-- An index outside the list or table that it points into. -/
  | outOfRange
  /-- An index that no platform set can hold. -/
  | beyondSet (index : Nat)
  /-- A random choice from nothing. -/
  | emptyChoice
  /-- A count too great for a word, or for a list of so many entries. -/
  | tooGreat
deriving DecidableEq, Repr

/-- The report of a fault, for those that have one. -/
def Fault.message? : Fault → Option String
  | .beyondSet index => some s!"index {index} exceeds set capacity"
  | .outOfRange | .emptyChoice | .tooGreat => none

/-- The element of a list at an index. -/
def elementAt {β : Type} (xs : List β) (i : Nat) : Except Fault β :=
  match xs[i]? with
  | some x => .ok x
  | none => .error .outOfRange

end OffshoreFlights
