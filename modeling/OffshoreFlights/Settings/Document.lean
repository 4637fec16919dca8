/-! Documents: self-describing values such as a settings file holds. A number that is written
without a point or an exponent is an integer. -/

namespace OffshoreFlights

/-- A value of a settings file. -/
inductive Document where
  | null
  | bool (value : Bool)
  | integer (value : Int)
  | decimal (value : Float)
  | text (value : String)
  | list (items : List Document)
  | record (fields : List (String × Document))
deriving Inhabited

namespace Document

/-- The counts that a field can hold are below this. -/
def countBound : Int := 0x10000000000000000

/-- The value of a field that holds a count. -/
def count? : Document → Option Nat
  | .integer i => if 0 ≤ i ∧ i < countBound then some i.toNat else none
  | _ => none

/-- The value of a field that holds a number: any number, rounded to the nearest float. -/
def number? : Document → Option Float
  | .integer i => some (Float.ofInt i)
  | .decimal x => some x
  | _ => none

/-- The document of a float. What is no real number has none but the empty one. -/
def ofFloat (x : Float) : Document := if x.isFinite then .decimal x else .null

end Document

end OffshoreFlights
