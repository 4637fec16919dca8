import OffshoreFlights.Number.Binary64

/-! Numerals as files hold them, and the numbers that they denote. -/

namespace OffshoreFlights.Numeral

/-- The number that decimal digits denote. -/
def ofDigits (digits : List Char) : Nat :=
  digits.foldl (fun n c => 10 * n + (c.toNat - '0'.toNat)) 0

/-- A natural number below `bound`: an optional plus, then one or more digits. -/
def natural? (bound : Nat) (token : List Char) : Option Nat :=
  let digits := match token with
    | '+' :: rest => rest
    | _ => token
  if digits ≠ [] ∧ digits.all Char.isDigit = true ∧ ofDigits digits < bound then
    some (ofDigits digits)
  else none

/-- An exponent: an optional sign, then one or more digits. -/
def exponent? (text : List Char) : Option Int :=
  let (negative, digits) := match text with
    | '+' :: rest => (false, rest)
    | '-' :: rest => (true, rest)
    | _ => (false, text)
  if digits ≠ [] ∧ digits.all Char.isDigit = true then
    some (if negative then -(ofDigits digits : Int) else ofDigits digits)
  else none

/-- A decimal without a sign, as digits and the power of ten that they count: digits, of which a
point may stand before, between or after, and an optional exponent after `e` or `E`. -/
def decimal? (text : List Char) : Option (Nat × Int) :=
  let whole := text.takeWhile Char.isDigit
  let (fraction, rest) := match text.dropWhile Char.isDigit with
    | '.' :: tail => (tail.takeWhile Char.isDigit, tail.dropWhile Char.isDigit)
    | tail => ([], tail)
  let scaled (exponent : Int) := (ofDigits (whole ++ fraction), exponent - fraction.length)
  if whole = [] ∧ fraction = [] then none
  else match rest with
    | [] => some (scaled 0)
    | c :: tail => if c = 'e' ∨ c = 'E' then (exponent? tail).map scaled else none

/-- The float nearest to `digits * 10 ^ scale`. Beyond the greatest and the least magnitude of a
float, the power of ten is not computed. -/
def nearest (digits : Nat) (scale : Int) : Float :=
  let top := (Nat.toDigits 10 digits).length + scale
  if digits = 0 ∨ top < -330 then 0
  else if 330 < top then 1 / 0
  else Float.ofScientific digits (decide (scale < 0)) scale.natAbs

/-- A float: an optional sign, then a decimal or the name of infinity or of what is no number, in
letters of either case. Decimals round to the nearest float. -/
def float? (token : List Char) : Option Float :=
  let (negative, text) := match token with
    | '+' :: rest => (false, rest)
    | '-' :: rest => (true, rest)
    | _ => (false, token)
  let magnitude? : Option Float :=
    let name := String.ofList (text.map Char.toLower)
    if name = "inf" ∨ name = "infinity" then some (1 / 0)
    else if name = "nan" then some (0 / 0)
    else (decimal? text).map fun (digits, scale) => nearest digits scale
  magnitude?.map fun x => if negative then -x else x

end OffshoreFlights.Numeral
