import OffshoreFlights.Fault
import OffshoreFlights.Number.Decimal

/-! The reasons why a problem is refused, a file is not read or a plan is not found, and the text
that reports each of them. -/

namespace OffshoreFlights

/-- What a distance table or the list of its locations has against the rules. -/
inductive LayoutFlaw (α : Type) where
  /-- The location at a place in the list has another id than that place. -/
  | misplaced (place id : Nat)
  /-- Somebody waits at the depot. -/
  | depotDemand
  /-- Two opposite distances differ, or a location is away from itself. -/
  | notSymmetric
  /-- A distance is negative, infinite or undefined. -/
  | badEntry (row column : Nat) (distance : α)
deriving DecidableEq

/-- What a file should hold at some place. -/
inductive FileField where
  | platformCount | rangeLimit | capacity | index | xCoordinate | yCoordinate | demand
deriving DecidableEq

/-- What is wrong with a token of a file, or with the lack of one. -/
inductive TokenFlaw where
  /-- The file ends where the field should stand. -/
  | missing (field : FileField)
  /-- The token does not read as the field. -/
  | invalid (field : FileField) (token : String)
  /-- The record is out of its order. -/
  | wrongIndex (expected found : Nat)
deriving DecidableEq

/-- Why an LP was not solved. -/
inductive Lp.Failure where
  /-- A column lowers the cost without end, since it meets no binding row. -/
  | freeColumn (column : Nat)
  /-- No column is left that could meet the rows. -/
  | noCover
  /-- No choice of the columns meets the rows. -/
  | primalInfeasible
  /-- The cost has no lower bound, or the rows cannot be met. -/
  | dualInfeasible
  /-- The solver gave up. -/
  | numericalError
  /-- A reason of the backend's own. -/
  | other (reason : String)
deriving DecidableEq

/-- Why an operation has no answer. -/
inductive Error (α : Type) where
  | noPlatforms
  | tooManyPlatforms (count max : Nat)
  | noSeats
  | badRange (range : α)
  | sizeMismatch (expected found : Nat)
  | badLayout (flaw : LayoutFlaw α)
  | badToken (line : Nat) (flaw : TokenFlaw)
  /-- A file is missing or does not hold text. -/
  | unreadable
  | lp (failure : Lp.Failure)
  | stalled (remaining : Nat)
  | noSuchFlight (index candidates : Nat)
  /-- The caller broke the terms of the operation. -/
  | fault (cause : Fault)
deriving DecidableEq

def LayoutFlaw.message : LayoutFlaw Float → String
  | .misplaced place id => s!"location {place} has id {id}"
  | .depotDemand => "depot must have zero demand"
  | .notSymmetric => "matrix must be symmetric with a zero diagonal"
  | .badEntry row column distance => s!"entry ({row}, {column}) = {Decimal.full distance}"

def FileField.name : FileField → String
  | .platformCount => "platform count"
  | .rangeLimit => "range limit"
  | .capacity => "capacity"
  | .index => "index"
  | .xCoordinate => "x coordinate"
  | .yCoordinate => "y coordinate"
  | .demand => "demand"

def TokenFlaw.message : TokenFlaw → String
  | .missing field => s!"unexpected end of input, expected {field.name}"
  | .invalid field token => s!"invalid {field.name} '{token}'"
  | .wrongIndex expected found => s!"expected index {expected}, found {found}"

def Lp.Failure.message : Lp.Failure → String
  | .freeColumn column => s!"column {column} has negative cost and no binding row: unbounded"
  | .noCover => "no columns cover the demand rows: infeasible"
  | .primalInfeasible => "clarabel returned status PrimalInfeasible"
  | .dualInfeasible => "clarabel returned status DualInfeasible"
  | .numericalError => "clarabel returned status NumericalError"
  | .other reason => reason

/-- The report of an error. An unreadable file has none, since its cause lies outside. -/
def Error.message? : Error Float → Option String
  | .noPlatforms => some "problem must contain at least one platform"
  | .tooManyPlatforms count max => some s!"too many platforms: {count} (at most {max} supported)"
  | .noSeats => some "helicopter capacity must be positive"
  | .badRange range => some s!"invalid range limit: {Decimal.full range}"
  | .sizeMismatch expected found =>
    some s!"dimension mismatch: expected {expected}, found {found}"
  | .badLayout flaw => some s!"invalid distance matrix: {flaw.message}"
  | .badToken line flaw => some s!"parse error on line {line}: {flaw.message}"
  | .unreadable => none
  | .lp failure => some s!"master LP failed: {failure.message}"
  | .stalled remaining =>
    some s!"rounding made no progress with {remaining} passengers left"
  | .noSuchFlight index candidates =>
    some s!"selection index {index} out of range for {candidates} candidates"
  | .fault f => f.message?

end OffshoreFlights
