import OffshoreFlights.Number.Numeral
import OffshoreFlights.Problem
import OffshoreFlights.Text.Tokens

/-! Problems in files. A platform file holds the number of platforms, the range of a flight and the
capacity of a helicopter, then for each platform its index and its two coordinates. A demand file
holds for each platform its index and its demand. Indices count from 1, and the depot, which is in
neither file, lies at the origin. -/

namespace OffshoreFlights

open Text

namespace Sheet

/-- Counts and indices are below this. -/
def countBound : Nat := 0x10000000000000000

/-- Numbers of passengers are below this. -/
def passengerBound : Nat := 0x100000000

/-- A list of numbers of passengers has room for fewer entries than this. -/
def roomBound : Nat := 0x2000000000000000

/-- Reads an index that must be `expected`. -/
def indexField (expected : Nat) : Reading Float Unit := do
  let found ← field .index (Numeral.natural? countBound)
  if found ≠ expected then
    throw (.badToken (← get).line (.wrongIndex expected found))

/-- Reads so many records, whose indices count from `first`. -/
def records {β : Type} (record : (index : Nat) → Reading Float β) :
    (count first : Nat) → Reading Float (List β)
  | 0, _ => return []
  | count + 1, first => do
    let r ← record first
    let rest ← records record count (first + 1)
    return r :: rest

end Sheet

open Sheet

/-- The contents of a platform file, the depot included. -/
structure PlatformSheet where
  platforms : List (Platform Float)
  range : Float
  capacity : Nat

namespace PlatformSheet

/-- The rule that the head of a platform file breaks. The depot counts as a location, and the number
of locations must be a count. -/
def headFlaw? (count : Nat) (range : Float) (capacity : Nat) : Option (Error Float) :=
  if count = 0 then some .noPlatforms
  else if countBound ≤ count + 1 then some (.fault .tooGreat)
  else if LocationSet.capacity < count + 1 then
    some (.tooManyPlatforms count (LocationSet.capacity - 1))
  else if range.isFinite = false ∨ ¬0 < range then some (.badRange range)
  else if capacity = 0 then some .noSeats
  else none

/-- Reads the record of the platform with a given index. -/
def platform (id : Nat) : Reading Float (Platform Float) := do
  indexField id
  let x ← field .xCoordinate Numeral.float?
  let y ← field .yCoordinate Numeral.float?
  return ⟨id, x, y, 0⟩

/-- Reads the head of the file, then the records. -/
def sheet : Reading Float PlatformSheet := do
  let count ← field .platformCount (Numeral.natural? countBound)
  let range ← field .rangeLimit Numeral.float?
  let capacity ← field .capacity (Numeral.natural? passengerBound)
  match headFlaw? count range capacity with
  | some flaw => throw flaw
  | none =>
    let platforms ← records platform count 1
    return ⟨.depot :: platforms, range, capacity⟩

/-- The contents of a platform file, given as bytes. -/
def ofBytes (bytes : List UInt8) : Except (Error Float) PlatformSheet :=
  sheet.run' (.start bytes)

end PlatformSheet

namespace DemandSheet

/-- Reads the record of the platform with a given index. -/
def demand (id : Nat) : Reading Float Nat := do
  indexField id
  field .demand (Numeral.natural? passengerBound)

/-- Reads the records of `count` platforms. -/
def sheet (count : Nat) : Reading Float (List Nat) := records demand count 1

/-- The demands of `count` platforms, from a file given as bytes. The room for them is set aside
before the file is read. -/
def ofBytes (count : Nat) (bytes : List UInt8) : Except (Error Float) (List Nat) :=
  if roomBound ≤ count then .error (.fault .tooGreat) else (sheet count).run' (.start bytes)

end DemandSheet

namespace Problem

/-- The problem in a platform file and a demand file. -/
def ofSheets (platformFile demandFile : List UInt8) : Except (Error Float) (Problem Float) := do
  let file ← PlatformSheet.ofBytes platformFile
  let demands ← DemandSheet.ofBytes (file.platforms.length - 1) demandFile
  let platforms := file.platforms.map fun p => { p with demand := (0 :: demands).getD p.id 0 }
  ofPlatforms platforms file.capacity file.range

/-- The problem in two files, either of which may be missing. Both are sought before one is read. -/
def ofFiles (platformFile? demandFile? : Option (List UInt8)) :
    Except (Error Float) (Problem Float) :=
  match platformFile?, demandFile? with
  | some platformFile, some demandFile => ofSheets platformFile demandFile
  | _, _ => .error .unreadable

end Problem

end OffshoreFlights
