import OffshoreFlights.Lp.Scripted
import OffshoreFlights.Proofs.FlightChooser
import OffshoreFlights.Proofs.Rounding.Carried
import OffshoreFlights.Proofs.Rounding.Columns

/-! What can be flown in a round. Behind the platforms' own itineraries, every itinerary of the
master program fits what is left, however long ago it was found. A platform's own one does as long
as somebody waits there. So a round drops the flights to platforms that are served, which have one
passenger too many, and no others. -/

namespace OffshoreFlights

section

variable {L S α : Type} [Scalar α] [Lp.Backend L α] [FlightChooser S α] {p : Problem α}
  {settings : Settings α} {residual : List ℕ}

/-! ### Itineraries -/

namespace Itinerary

variable {it : Itinerary α}

/-- A useful itinerary serves only platforms where somebody waits. -/
theorem Useful.waiting (h : it.Useful p residual) (hlength : residual.length = p.platformCount + 1)
    {i : ℕ} (hserved : 0 < it.servedAt i) :
    (1 ≤ i ∧ i ≤ p.platformCount) ∧ 0 < residual.getD i 0 := by
  have hwaiting : 0 < residual.getD i 0 :=
    hserved.trans_le (servedAt_le_of_fitsWithin (h.seated.length.trans hlength.symm) h.fits i)
  refine ⟨⟨?_, ?_⟩, hwaiting⟩
  · by_contra h0
    obtain rfl : i = 0 := by omega
    exact absurd h.seated.depot hserved.ne'
  · by_contra hi
    rw [List.getD_eq_default _ _ (by omega)] at hwaiting
    omega

end Itinerary

namespace MasterProgram

theorem fitsWithin_basisItinerary_iff (hlength : residual.length = p.platformCount + 1) {j : ℕ}
    (hj : j ≤ p.platformCount) :
    (basisItinerary p residual j).fitsWithin residual = true ↔ 1 ≤ residual.getD j 0 := by
  refine ⟨fun h => ?_, fitsWithin_basisItinerary hj⟩
  have hserved := (servedAt_basisItinerary_pos p residual hj).mpr rfl
  have hfits := Itinerary.servedAt_le_of_fitsWithin (by simp [basisItinerary, hlength]) h j
  exact hserved.trans_le hfits

/-! ### Master programs -/

variable {m : MasterProgram L α}

/-- Behind the platforms' own itineraries, all fit the residual demands and serve somebody, but
nobody where nobody waits. A platform's own itinerary fits if somebody waits there. -/
structure Flyable (p : Problem α) (residual : List ℕ) (m : MasterProgram L α) : Prop where
  found : ∀ it ∈ m.itineraries.drop p.platformCount, it.fitsWithin residual = true ∧
    1 ≤ it.passengerCount ∧ it.passengerCount ≤ p.capacity ∧
    ∀ i, 0 < it.servedAt i → (1 ≤ i ∧ i ≤ p.platformCount) ∧ 0 < residual.getD i 0
  own : ∀ j < p.platformCount, ∃ it, m.itineraries[j]? = some it ∧
    (it.fitsWithin residual = true ↔ 1 ≤ residual.getD (j + 1) 0)

omit [Lp.Backend L α] in
theorem Based.toFlyable (h : m.Based p residual) (hlength : residual.length = p.platformCount + 1) :
    m.Flyable p residual where
  found it hit :=
    have huseful := h.useful it hit
    ⟨huseful.fits, huseful.carries, huseful.seated.seats, fun _ => huseful.waiting hlength⟩
  own _ hj := ⟨_, h.getElem?_basis hj, fitsWithin_basisItinerary_iff hlength hj⟩

/-- The flight of the itinerary at a place, if it is flown more than `tolerance` times. -/
def flight? (m : MasterProgram L α) (tolerance : α) (place : Itinerary α × ℕ) :
    Option (FractionalFlight α) :=
  if tolerance < Lp.Backend.primal m.lp place.2 then
    some ⟨place.1, Lp.Backend.primal m.lp place.2⟩
  else none

theorem flightsAbove_eq (m : MasterProgram L α) (tolerance : α) :
    m.flightsAbove tolerance = m.itineraries.zipIdx.filterMap (m.flight? tolerance) := rfl

omit [Lp.Backend L α] in
theorem Based.place_fits (h : m.Based p residual)
    (hlength : residual.length = p.platformCount + 1) {place : Itinerary α × ℕ}
    (hplace : place ∈ m.itineraries.zipIdx) :
    (decide (0 < place.1.passengerCount) && place.1.fitsWithin residual) =
      decide (place.2 < p.platformCount → 0 < residual.getD (place.2 + 1) 0) := by
  obtain ⟨it, j⟩ := place
  have hget : m.itineraries[j]? = some it := List.mk_mem_zipIdx_iff_getElem?.mp hplace
  have hcarries := (h.carries (List.mem_of_getElem? hget)).2
  rw [decide_eq_true hcarries, Bool.true_and, Bool.eq_iff_iff, decide_eq_true_iff]
  by_cases hj : j < p.platformCount
  · obtain rfl := Option.some.inj ((h.getElem?_basis hj).symm.trans hget)
    rw [fitsWithin_basisItinerary_iff hlength hj]
    exact ⟨fun hwaiting _ => hwaiting, fun hwaiting => hwaiting hj⟩
  · exact ⟨fun _ hlt => absurd hlt hj,
      fun _ => (h.useful_of_le hget (Nat.le_of_not_lt hj)).fits⟩

/-- Of the flights reported, the ones that can be fixed are all but those in front to platforms
where nobody waits. -/
theorem Based.candidates_eq (h : m.Based p residual)
    (hlength : residual.length = p.platformCount + 1) (tolerance : α) :
    Rounding.candidates residual (m.flightsAbove tolerance) =
      (m.itineraries.zipIdx.filter fun place =>
        decide (place.2 < p.platformCount → 0 < residual.getD (place.2 + 1) 0)).filterMap
          (m.flight? tolerance) := by
  rw [Rounding.candidates, flightsAbove_eq, List.filter_filterMap, List.filterMap_filter]
  refine List.filterMap_congr fun place hplace => ?_
  rw [← h.place_fits hlength hplace]
  unfold flight?
  split
  · rfl
  · rw [Option.filter_none, ite_self]

end MasterProgram

/-! ### Runs -/

namespace Rounding

theorem carried_based (p : Problem α) (settings : Settings α) :
    Carried p settings (fun residual (st : SolverState L α) => st.master.Trim p residual)
      fun residual st => st.master.Based p residual where
  reset _ _ h := h.reset
  preserved _ hlength := ColumnGeneration.preserved_based hlength settings
  removeUnfit _ left _ h := h.toTrim.removeUnfit left

/-- In every round, whatever the LP backend reports, all itineraries that were found by scans can be
flown: before the reset, in all states from then on, and when the flights are chosen from. Of the
flights reported, a round drops those of the platforms' own itineraries to platforms where nobody
waits any more. -/
theorem Reached.flyable {lp : L} (hrows : Lp.Backend.rowCount lp = p.platformCount)
    {memory : TourMemory α} {chooser : S} {r : Rounding L S α}
    (h : Reached p settings (start p ⟨.start lp, memory⟩ chooser) r) :
    (∀ it ∈ r.solver.master.itineraries.drop p.platformCount, it.Useful p r.residual) ∧
      (∀ st, ColumnGeneration.Passed p settings r.residual r.solver st →
        st.master.Flyable p r.residual) ∧
      ∀ outcome solver,
        ColumnGeneration.generate p settings r.residual r.solver = (.ok outcome, solver) →
          solver.master.Flyable p r.residual ∧
          outcome.flights =
            solver.master.itineraries.zipIdx.filterMap
              (solver.master.flight? settings.tolerance) ∧
          r.choice outcome = (solver.master.itineraries.zipIdx.filter fun place =>
            decide (place.2 < p.platformCount → 0 < r.residual.getD (place.2 + 1) 0)).filterMap
              (solver.master.flight? settings.tolerance) := by
  have hcarried := carried_based (L := L) p settings
  have hfirst := consistent_start p lp memory chooser
  have hr := h.consistent hfirst
  have htrim := hcarried.reached hfirst (MasterProgram.trim_start hrows) h
  refine ⟨htrim.useful, fun st hst => ?_, fun outcome solver hgenerate => ?_⟩
  · exact (hcarried.passed hr htrim hst).toFlyable hr.length
  · have hbased := hcarried.generated hr htrim hgenerate
    have hflights := (ColumnGeneration.report_of_generate hgenerate).1
    refine ⟨hbased.toFlyable hr.length, hflights, ?_⟩
    rw [choice, hflights]
    exact hbased.candidates_eq hr.length settings.tolerance

end Rounding

end

/-! Two platforms, at the first of which nobody waits, and a backend that flies to both. -/

namespace Lopsided

def problem : Problem ℚ where
  platforms := [.depot, ⟨1, 1, 0, 0⟩, ⟨2, 2, 0, 1⟩]
  distances := ⟨3, #[0, 1, 2, 1, 0, 1, 2, 1, 0], rfl⟩
  capacity := 1
  range := 4
  sound := by decide +kernel

def settings : Settings ℚ := ⟨1, 0, 0, 1, 1⟩

def first : Rounding (Lp.Scripted ℚ) ChooseFirst ℚ :=
  .start problem ⟨.start (.start 2 [.solution 4 [1, 1] [0, 4]]), .empty⟩ ⟨⟩

/-- Column generation of the first round. -/
def generated : Except (Error ℚ) (ColumnGeneration.Outcome ℚ) × SolverState (Lp.Scripted ℚ) ℚ :=
  ColumnGeneration.generate problem settings [0, 0, 1] first.solver

/-- The flight to the first platform is dropped, and the one to the second platform stays. -/
theorem flyable_lopsided : ∃ outcome, generated.1 = .ok outcome ∧
    generated.2.master.Flyable problem [0, 0, 1] ∧
    outcome.flights.map (fun f => f.itinerary.stops) = [[1], [2]] ∧
    (first.choice outcome).map (fun f => f.itinerary.stops) = [[2]] := by
  have hok : generated.1.isOk = true := by decide +kernel
  cases houtcome : generated.1 with
  | error e =>
    rw [houtcome] at hok
    cases hok
  | ok outcome =>
    have hreached : Rounding.Reached problem settings first first := .refl
    obtain ⟨-, -, hround⟩ := Rounding.Reached.flyable rfl hreached
    obtain ⟨hflyable, hflights, hchoice⟩ := hround outcome generated.2 (Prod.ext houtcome rfl)
    refine ⟨outcome, rfl, hflyable, ?_, ?_⟩
    · rw [hflights]
      decide +kernel
    · rw [hchoice]
      decide +kernel

end Lopsided

end OffshoreFlights
