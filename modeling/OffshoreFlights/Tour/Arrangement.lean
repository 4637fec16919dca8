/-! Arrangements of a list of locations in lexicographic order: the step from each to the next. -/

namespace OffshoreFlights.Arrangement

/-- The number of arrangements of `n` different things. -/
def count : Nat → Nat
  | 0 => 1
  | n + 1 => (n + 1) * count n

/-- Puts `x` before the ascending list `rising`, whose first greater element it gives way to: that
element comes first, and the others follow in ascending order. -/
def bump? (x : Nat) (rising : List Nat) : Option (List Nat) :=
  match rising.dropWhile (· ≤ x) with
  | [] => none
  | y :: greater => some (y :: (rising.takeWhile (· ≤ x) ++ x :: greater))

/-- The least arrangement that is greater than `s`. There is none when `s` descends. -/
def next? : List Nat → Option (List Nat)
  | [] => none
  | x :: rest =>
    match next? rest with
    | some later => some (x :: later)
    | none => bump? x rest.reverse

/-- The step from an arrangement to the next, with whether there is one. From the last arrangement
the step leads back to the first. -/
def next (s : List Nat) : Bool × List Nat :=
  match next? s with
  | some t => (true, t)
  | none => (false, s.reverse)

/-- The last of the arrangements that agree with `s` up to position `i`. -/
def lastAgreeing (s : List Nat) (i : Nat) : List Nat :=
  s.take (i + 1) ++ (s.drop (i + 1)).mergeSort (fun x y => decide (y ≤ x))

end OffshoreFlights.Arrangement
