import Mathlib.Data.Rat.Floor
import OffshoreFlights.Proofs.Itinerary.Worth
import OffshoreFlights.Proofs.LocationSet

/-! Serving stops in turn against every other way to fill the seats. Where a later stop's passengers
are worth no more than an earlier one's, and nobody is worth less than nothing, no other way to fill
them costs less. -/

namespace OffshoreFlights.Itinerary

variable {demands stops : List ℕ} {capacity : ℕ}

/-- A way to fill the seats: who is on board waits at one of the stops. -/
structure Fills (demands stops : List ℕ) (capacity : ℕ) (load : ℕ → ℕ) : Prop where
  supported : ∀ i, i ∉ stops → load i = 0
  waits : ∀ i ∈ stops, load i ≤ demands.getD i 0
  seated : ∑ i ∈ Finset.range demands.length, load i ≤ capacity

/-- Stops served in turn fill the seats. -/
theorem fills_servedAt {α : Type} (hnodup : stops.Nodup) (hstops : ∀ i ∈ stops, i < demands.length)
    (tourLength : α) (capacity : ℕ) :
    Fills demands stops capacity (firstServed stops tourLength demands capacity).servedAt where
  supported i hi := by rw [servedAt_firstServed hnodup hstops, share_of_notMem hi]
  waits i _ := by
    rw [servedAt_firstServed hnodup hstops]
    exact share_le_demand i
  seated := by
    have hcount : (firstServed stops tourLength demands capacity).passengerCount =
        min capacity (waitingAt demands stops) := passengerCount_firstServed hnodup hstops
    rw [passengerCount, headcount_eq_sum_range, length_allocation_firstServed] at hcount
    exact hcount.trans_le (Nat.min_le_left _ _)

theorem firstServedChecked_eq_ok {α : Type} (hstops : ∀ i ∈ stops, i < demands.length)
    (hset : ∀ i ∈ stops, i < LocationSet.capacity) (tourLength : α) :
    firstServedChecked stops tourLength demands capacity =
      .ok (firstServed stops tourLength demands capacity) := by
  have hcovered : stops.forM (fun p => if p < demands.length then .ok () else
      .error Fault.outOfRange) = (.ok () : Except Fault Unit) := by
    clear hset
    induction stops with
    | nil => rfl
    | cons p rest ih =>
      obtain ⟨hp, hrest⟩ := List.forall_mem_cons.mp hstops
      rw [List.forM_eq_forM, List.forM_cons, if_pos hp]
      exact ih hrest
  rw [firstServedChecked, hcovered, LocationSet.forM_checkId hset]
  rfl

variable {K : Type} [Field K] [LinearOrder K] [FloorRing K] [IsStrictOrderedRing K]

/-- In exact arithmetic, stops served in the order of falling dual values fill the seats as far as
somebody waits, and the tour less the worth of its passengers is the least over all ways to fill
them. -/
theorem firstServed_fills_best (hnodup : stops.Nodup) (hstops : ∀ i ∈ stops, i < demands.length)
    {duals : List K} (hnonneg : ∀ i ∈ stops, 0 ≤ duals.getD i 0)
    (hfalling : stops.Pairwise fun i j => duals.getD j 0 ≤ duals.getD i 0) (tourLength : K) :
    ((∀ i ∈ stops, i < LocationSet.capacity) →
      firstServedChecked stops tourLength demands capacity =
        .ok (firstServed stops tourLength demands capacity)) ∧
    Fills demands stops capacity (firstServed stops tourLength demands capacity).servedAt ∧
    (firstServed stops tourLength demands capacity).passengerCount =
      min capacity (waitingAt demands stops) ∧
    IsLeast {cost | ∃ load, Fills demands stops capacity load ∧ cost =
        tourLength - ∑ i ∈ Finset.range demands.length, (load i : K) * duals.getD i 0}
      ((firstServed stops tourLength demands capacity).reducedCost duals) := by
  have hfills := fills_servedAt hnodup hstops tourLength capacity
  refine ⟨fun hset => firstServedChecked_eq_ok hstops hset tourLength, hfills,
    passengerCount_firstServed hnodup hstops, ⟨_, hfills, ?_⟩, ?_⟩
  · rw [reducedCost_eq_sum_range, length_allocation_firstServed]
    rfl
  · rintro _ ⟨load, hload, rfl⟩
    have hseats : (stops.map load).sum ≤ capacity := by
      rw [← sum_range_eq_sum_map hnodup hstops fun i _ => hload.supported i]
      exact hload.seated
    have hworth : ∑ i ∈ Finset.range demands.length, (load i : K) * duals.getD i 0 =
        worth (fun i => duals.getD i 0) load stops :=
      sum_range_eq_sum_map hnodup hstops fun i _ hi => by
        rw [hload.supported i hi, Nat.cast_zero, zero_mul]
    rw [hworth, reducedCost_firstServed hnodup hstops]
    exact sub_le_sub_left (worth_le_worth_share hnonneg hfalling hnodup hload.waits hseats) _

/-- Two stops are worth the same, nobody waits at one, one is served in part, and one after that not
at all. -/
theorem firstServed_fills_best_partial :
    (firstServed [3, 2, 1, 4] (9 : ℚ) [0, 2, 0, 3, 4] 4).allocation = [0, 1, 0, 3, 0] ∧
    IsLeast {cost : ℚ | ∃ load, Fills [0, 2, 0, 3, 4] [3, 2, 1, 4] 4 load ∧ cost =
        9 - ∑ i ∈ Finset.range 5, (load i : ℚ) * [0, 2, 5, 5, 1].getD i 0} (-8) := by
  have hnonneg : ∀ i ∈ [3, 2, 1, 4], (0 : ℚ) ≤ [0, 2, 5, 5, 1].getD i 0 := by decide +kernel
  have hfalling : [3, 2, 1, 4].Pairwise fun i j =>
      ([0, 2, 5, 5, 1] : List ℚ).getD j 0 ≤ [0, 2, 5, 5, 1].getD i 0 := by
    decide +kernel
  obtain ⟨-, -, -, hleast⟩ :=
    @firstServed_fills_best [0, 2, 0, 3, 4] [3, 2, 1, 4] 4 ℚ _ _ _ _ (by decide) (by decide)
      [0, 2, 5, 5, 1] hnonneg hfalling 9
  have hcost : (firstServed [3, 2, 1, 4] (9 : ℚ) [0, 2, 0, 3, 4] 4).reducedCost
      [0, 2, 5, 5, 1] = -8 := by
    decide +kernel
  rw [hcost] at hleast
  exact ⟨rfl, hleast⟩

end OffshoreFlights.Itinerary
