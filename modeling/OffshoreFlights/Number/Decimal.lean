import OffshoreFlights.Number.Binary64

/-! Decimal text of binary64 floats: the shortest digits that read back as the same float, a fixed
number of places, and the float that a decimal numeral denotes. -/

namespace OffshoreFlights.Decimal

/-- `num / den` rounded to the nearest natural number, the even one of two. -/
def roundDiv (num den : Nat) : Nat :=
  let quotient := num / den
  match compare (2 * (num % den)) den with
  | .lt => quotient
  | .eq => quotient + quotient % 2
  | .gt => quotient + 1

/-- The power of two with exponent `n`. -/
def twoPow (n : Nat) : Nat := Nat.pow 2 n

/-- The power of ten with exponent `n`. -/
def tenPow (n : Nat) : Nat := Nat.pow 10 n

/-- `mantissa * 2 ^ exponent` as a numerator and a denominator. -/
def ratio (mantissa : Nat) (exponent : Int) : Nat × Nat :=
  (mantissa * twoPow exponent.toNat, twoPow (-exponent).toNat)

/-- The least `e` with `num / den < 10 ^ e`, for a positive quotient above `10 ^ (-400)`. -/
def magnitude (num den : Nat) : Int :=
  if den ≤ num then (Nat.toDigits 10 (num / den)).length
  else
    match (List.range 400).find? fun k => den ≤ num * tenPow (k + 1) with
    | some k => -(k : Int)
    | none => -400

/-- A decimal numeral: `digits * 10 ^ scale`. -/
structure Numeral where
  digits : Nat
  scale : Int

/-- The distance between `digits * 10 ^ scale` and `num / den`, times `den * 10 ^ (-scale)⁺`. -/
private def gap (num den : Nat) (n : Numeral) : Nat :=
  let a := n.digits * tenPow n.scale.toNat * den
  let b := num * tenPow (-n.scale).toNat
  (a - b) + (b - a)

/-- Whether a decimal numeral lies among the real numbers that round to `mantissa * 2 ^ exponent`.
They reach half way to the neighbouring floats; just above a power of two, the lower neighbour is
nearer. The two ends belong to them when the mantissa is even. -/
def roundsTo (mantissa : Nat) (exponent : Int) (n : Numeral) : Bool :=
  let quarter := exponent - 2
  let low := if mantissa == twoPow 52 && decide (-1074 < exponent) then 4 * mantissa - 1
    else 4 * mantissa - 2
  let high := 4 * mantissa + 2
  let a := n.digits * tenPow n.scale.toNat * twoPow (-quarter).toNat
  let unit := tenPow (-n.scale).toNat * twoPow quarter.toNat
  if mantissa % 2 == 0 then decide (low * unit ≤ a) && decide (a ≤ high * unit)
  else decide (low * unit < a) && decide (a < high * unit)

/-- The numeral with the fewest digits that reads back as `mantissa * 2 ^ exponent`, and of those
with that many digits the nearest, the greater of two. On each grid of decimal numerals, coarse ones
first, only the two neighbours of the value can be nearest. -/
def shortest (mantissa : Nat) (exponent : Int) : Numeral :=
  let (num, den) := ratio mantissa exponent
  let top := magnitude num den
  let grids := (List.range 18).map fun k : Nat => top - k
  let onGrid (scale : Int) : Option Numeral :=
    let below := num * tenPow (-scale).toNat / (den * tenPow scale.toNat)
    let hits := [⟨below, scale⟩, ⟨below + 1, scale⟩].filter (roundsTo mantissa exponent)
    match hits with
    | [] => none
    | [n] => some n
    | n :: p :: _ => some (if gap num den p ≤ gap num den n then p else n)
  (grids.findSome? onGrid).getD ⟨mantissa, 0⟩

/-- Digits with a point before the last `places` of them. -/
def withPoint (digits places : Nat) : String :=
  let text := (Nat.toDigits 10 digits)
  let padded := List.replicate (places + 1 - text.length) '0' ++ text
  let whole := padded.take (padded.length - places)
  let fraction := padded.drop (padded.length - places)
  if places = 0 then String.ofList whole else String.ofList (whole ++ '.' :: fraction)

/-- A numeral in positional notation, without a point when no digit follows it. -/
def Numeral.positional (n : Numeral) : String :=
  if 0 ≤ n.scale then toString (n.digits * tenPow n.scale.toNat)
  else withPoint n.digits (-n.scale).toNat

/-- How a float is written: `digits` writes the magnitude of a finite one. A minus stands before
every negative value, zero included, and the values that are no real number have names. -/
def written (digits : Nat → Int → String) (x : Float) : String :=
  let signed (negative : Bool) (text : String) := if negative then "-" ++ text else text
  match Binary64.ofFloat x with
  | .finite negative mantissa exponent => signed negative (digits mantissa exponent)
  | .infinite negative => signed negative "inf"
  | .notANumber => "NaN"

/-- The text of a float in full: the fewest digits that read back, in positional notation. -/
def full (x : Float) : String :=
  written (fun mantissa exponent =>
    if mantissa = 0 then "0" else (shortest mantissa exponent).positional) x

/-- The text of a float to a number of places, its exact value rounded, to the even digit of two. -/
def toPlaces (places : Nat) (x : Float) : String :=
  written (fun mantissa exponent =>
    let (num, den) := ratio mantissa exponent
    withPoint (roundDiv (num * tenPow places) den) places) x

end OffshoreFlights.Decimal
