import OffshoreFlights.Number.Binary64
import OffshoreFlights.Settings.Document

/-! The settings of the solver, and how they are read from a document and written to one. -/

namespace OffshoreFlights

/-- The settings of the solver. -/
structure Settings (α : Type) where
  /-- Column generation stops after so many iterations, after one at least. -/
  iterationLimit : Nat
  /-- One pricing scan adds so many columns at most. -/
  columnsPerIteration : Nat
  /-- A reduced cost counts as negative below its negative, and a frequency as positive above it. -/
  tolerance : α
  /-- Tours are sought up to this length beyond the range. -/
  rangeSlack : α
  /-- Progress is reported every so many iterations. -/
  progressInterval : Nat
deriving BEq

namespace Settings

/-- The settings that hold unless others are chosen. -/
protected def default {α : Type} [Scalar α] : Settings α where
  iterationLimit := 100000
  columnsPerIteration := 15
  tolerance := ((1 : Nat) : α) / ((100000000 : Nat) : α)
  rangeSlack := ((1 : Nat) : α) / ((10 : Nat) : α)
  progressInterval := 25

/-- Sets one setting from the document of its value. A name that is no setting is passed over. -/
def set? (s : Settings Float) (value : Document) : (name : String) → Option (Settings Float)
  | "iteration_limit" => value.count?.map fun n => { s with iterationLimit := n }
  | "max_columns_per_iteration" => value.count?.map fun n => { s with columnsPerIteration := n }
  | "tolerance" => value.number?.map fun x => { s with tolerance := x }
  | "range_slack" => value.number?.map fun x => { s with rangeSlack := x }
  | "progress_interval" => value.count?.map fun n => { s with progressInterval := n }
  | _ => some s

/-- The names of the settings, in the order in which a list holds their values. -/
def names : List String :=
  ["iteration_limit", "max_columns_per_iteration", "tolerance", "range_slack", "progress_interval"]

/-- The settings with those of a record in place. -/
def override? (s : Settings Float) (fields : List (String × Document)) : Option (Settings Float) :=
  fields.foldlM (fun s (name, value) => s.set? value name) s

/-- Whether no setting stands twice in a record. -/
def unambiguous (fields : List (String × Document)) : Bool :=
  names.all fun name => decide ((fields.filter fun field => field.1 == name).length ≤ 1)

/-- The settings that a document holds: a record of some of them by name, or a list of the first
ones in order. Those that are missing have their default values. -/
def ofDocument? : Document → Option (Settings Float)
  | .record fields => if unambiguous fields then override? .default fields else none
  | .list items =>
    if items.length ≤ names.length then override? .default (names.zip items) else none
  | _ => none

/-- The document of the settings, a record of all of them. -/
def toDocument (s : Settings Float) : Document :=
  .record [("iteration_limit", .integer s.iterationLimit),
    ("max_columns_per_iteration", .integer s.columnsPerIteration),
    ("tolerance", .ofFloat s.tolerance), ("range_slack", .ofFloat s.rangeSlack),
    ("progress_interval", .integer s.progressInterval)]

/-- Whether the settings are read back from their document as they are. -/
def survives (s : Settings Float) : Bool := ofDocument? s.toDocument == some s

end Settings

end OffshoreFlights
