/-! The numbers in which positions, distances, costs and LP values are reckoned. Every algorithm of
the library is written once over `Scalar`: it runs on binary64 floats, where each operation rounds,
and it can be studied over an exact ordered field, where none does. -/

namespace OffshoreFlights

/-- The operations that planning needs of its numbers. The comparisons are those of the type itself,
so a float that is not a number compares false; `compareTotal` alone orders all values. -/
class Scalar (α : Type) extends
    Zero α, NatCast α, Add α, Sub α, Mul α, Div α, Neg α, LT α, LE α, BEq α where
  decLt : DecidableLT α
  decLe : DecidableLE α
  /-- Neither infinite nor undefined. -/
  isFinite : α → Bool
  /-- A total order of all values that extends `<` on the finite nonzero ones. -/
  compareTotal : α → α → Ordering
  /-- The greatest natural number not above the value, held between 0 and `2 ^ 32 - 1`. -/
  floorWord : α → Nat

instance Scalar.decidableLt {α : Type} [Scalar α] (x y : α) : Decidable (x < y) :=
  Scalar.decLt x y

instance Scalar.decidableLe {α : Type} [Scalar α] (x y : α) : Decidable (x ≤ y) :=
  Scalar.decLe x y

/-- Numbers with a square root, which distances in the plane need. -/
class SquareRoot (α : Type) where
  sqrt : α → α

namespace Scalar

variable {α : Type} [Scalar α]

/-- The distance of a value from zero. -/
def magnitude (x : α) : α := if x < 0 then -x else x

/-- The lesser of two values, the first when neither is less. -/
def lesser (x y : α) : α := if y < x then y else x

/-- The sum of a list. It starts from the negative of zero, which adds nothing to any value and
keeps the sign of a sum of negative zeros. -/
def sum (xs : List α) : α := xs.foldl (· + ·) (-0)

/-- The first value of a list that no other precedes in the total order. -/
def least? : List α → Option α
  | [] => none
  | x :: xs => some (xs.foldl (fun m y => if compareTotal y m = .lt then y else m) x)

end Scalar

end OffshoreFlights
