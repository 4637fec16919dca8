import OffshoreFlights.Plan
import OffshoreFlights.Random.Words

/-! Ways to choose which flight of a relaxed plan is fixed next. -/

namespace OffshoreFlights

/-- A way to choose among flights, with a state that each choice may change. -/
class FlightChooser (S : Type) (α : Type) where
  choose : S → (candidates : List (FractionalFlight α)) → Except Fault Nat × S

variable {α : Type} [Scalar α]

/-- Chooses the first flight. -/
structure ChooseFirst where

instance : FlightChooser ChooseFirst α where
  choose s _ := (.ok 0, s)

/-- Chooses a flight that is flown most often, the first of them. -/
structure ChooseMostFlown where

/-- The place of the greatest frequency, given the best of the frequencies before and its place. -/
def ChooseMostFlown.bestFrom (best : α) (place index : Nat) : List (FractionalFlight α) → Nat
  | [] => place
  | f :: rest =>
    if best < f.frequency then bestFrom f.frequency index (index + 1) rest
    else bestFrom best place (index + 1) rest

/-- The place of the first flight that no other exceeds in frequency. -/
def ChooseMostFlown.best : List (FractionalFlight α) → Nat
  | [] => 0
  | f :: rest => bestFrom f.frequency 0 1 rest

instance : FlightChooser ChooseMostFlown α where
  choose s candidates := (.ok (ChooseMostFlown.best candidates), s)

/-- Chooses as a list says, one place after another, and the last flight after its end. -/
structure ChooseListed where
  places : List Nat

instance : FlightChooser ChooseListed α where
  choose s candidates :=
    match s.places with
    | place :: places => (.ok place, ⟨places⟩)
    | [] => (.ok (candidates.length - 1), s)

/-- Chooses every flight with the same chance. -/
structure ChooseRandom (G : Type) where
  source : G

instance {G : Type} [WordSource G] : FlightChooser (ChooseRandom G) α where
  choose s candidates :=
    if candidates.isEmpty then (.error .emptyChoice, s)
    else
      let (place, source) := WordSource.below s.source candidates.length
      (.ok place, ⟨source⟩)

end OffshoreFlights
