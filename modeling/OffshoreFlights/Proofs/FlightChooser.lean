import Mathlib.Data.List.Basic
import OffshoreFlights.FlightChooser

/-! Which choosers always find a flight. -/

namespace OffshoreFlights

/-- A chooser that never fails, and among some flights always chooses one of them. -/
class FlightChooser.Decisive (S α : Type) [Scalar α] [FlightChooser S α] : Prop where
  choose_lt : ∀ (s : S) {candidates : List (FractionalFlight α)}, candidates ≠ [] →
    ∃ index < candidates.length, (choose s candidates).1 = .ok index

variable {α : Type} [Scalar α]

instance : FlightChooser.Decisive ChooseFirst α :=
  ⟨fun _ _ hsome => ⟨0, List.length_pos_of_ne_nil hsome, rfl⟩⟩

namespace ChooseMostFlown

theorem bestFrom_lt (best : α) {place index : ℕ} (hplace : place < index)
    (rest : List (FractionalFlight α)) : bestFrom best place index rest < index + rest.length := by
  induction rest generalizing best place index with
  | nil => exact hplace
  | cons f rest ih =>
    rw [bestFrom, List.length_cons]
    split
    · have := ih f.frequency (show index < index + 1 by omega)
      omega
    · have := ih best (show place < index + 1 by omega)
      omega

theorem best_lt {candidates : List (FractionalFlight α)} (hsome : candidates ≠ []) :
    best candidates < candidates.length := by
  cases candidates with
  | nil => exact absurd rfl hsome
  | cons f rest =>
    have := bestFrom_lt f.frequency Nat.zero_lt_one rest
    rw [best, List.length_cons]
    omega

end ChooseMostFlown

instance : FlightChooser.Decisive ChooseMostFlown α :=
  ⟨fun _ _ hsome => ⟨_, ChooseMostFlown.best_lt hsome, rfl⟩⟩

end OffshoreFlights
