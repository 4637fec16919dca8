import OffshoreFlights.Scalar

/-! Binary64 floats as numbers to plan with: their exact values, the nearest float to a rational
number, and the instance of `Scalar` on which the program runs. -/

namespace OffshoreFlights

/-- The value of a float: a sign with the magnitude `mantissa * 2 ^ exponent`, or a value that is no
real number. Both zeros have mantissa 0. -/
inductive Binary64 where
  | finite (negative : Bool) (mantissa : Nat) (exponent : Int)
  | infinite (negative : Bool)
  | notANumber
deriving DecidableEq, Repr

namespace Binary64

open Float.Model (UnpackedFloat)

private def isNegative : UnpackedFloat.Sign → Bool
  | .negative => true
  | .positive => false

/-- Takes a float apart. -/
def ofFloat (x : Float) : Binary64 :=
  match x.toModel.unpack with
  | .zero sign => .finite (isNegative sign) 0 0
  | .finite sign mantissa exponent _ => .finite (isNegative sign) mantissa exponent
  | .infinity sign => .infinite (isNegative sign)
  | .notANumber => .notANumber

/-- The exact value of a finite float. -/
def toRat? (x : Float) : Option Rat :=
  match ofFloat x with
  | .finite negative mantissa exponent =>
    let magnitude : Rat := (mantissa : Rat) * (2 : Rat) ^ exponent
    some (if negative then -magnitude else magnitude)
  | .infinite _ | .notANumber => none

/-- The float nearest to a quotient of natural numbers, the even one of two, with the given sign. -/
def ofQuotient (negative : Bool) (num den : Nat) : Float :=
  let sign : UnpackedFloat.Sign := if negative then .negative else .positive
  if hn : 0 < num then
    if hd : 0 < den then
      .ofModel <| .pack <| UnpackedFloat.div Float.Model.Format.binary64
        (.finite sign num 0 hn) (.finite .positive den 0 hd)
    else .ofModel (.pack (.infinity sign))
  else .ofModel (.pack (.zero sign))

/-- The float nearest to a rational number, the even one of two. -/
def ofRat (q : Rat) : Float := ofQuotient (decide (q.num < 0)) q.num.natAbs q.den

/-- The place of a float in the total order: negative ones by falling magnitude, then positive ones
by rising magnitude, with the two zeros apart and what is no number last. -/
def rank (x : Float) : Int :=
  let bits := x.toBits.toNat
  if bits < 0x8000000000000000 then bits else 0x7fffffffffffffff - (bits : Int)

end Binary64

instance : Scalar Float where
  zero := Float.ofBits 0
  natCast := Float.ofNat
  decLt := Float.decLt
  decLe := Float.decLe
  isFinite := Float.isFinite
  compareTotal x y := compare (Binary64.rank x) (Binary64.rank y)
  floorWord x := x.toUInt32.toNat

instance : SquareRoot Float := ⟨Float.sqrt⟩

end OffshoreFlights
