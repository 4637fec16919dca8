import Mathlib.Algebra.Order.BigOperators.Group.Finset
import Mathlib.Order.Bounds.Basic
import OffshoreFlights.Proofs.Rounding.Service

/-! The counts of a rounding. Demands and seats are words of 32 bits, and the frequency of a flight
comes from whatever number the LP backend reports. A round keeps the frequency to what waits, so no
product of it exceeds a demand, and nothing is taken off a count that is smaller. -/

namespace OffshoreFlights

namespace Problem

variable {α : Type} [Scalar α] {p : Problem α}

/-- Passengers and seats are counted in words of 32 bits. -/
structure InWords (p : Problem α) : Prop where
  demands : ∀ d ∈ p.demands, d < 2 ^ 32
  seats : p.capacity < 2 ^ 32

theorem InWords.demand_lt (hp : p.InWords) (i : ℕ) : p.demands.getD i 0 < 2 ^ 32 := by
  by_cases hi : i < p.demands.length
  · rw [List.getD_eq_getElem _ _ hi]
    apply hp.demands
    apply List.getElem_mem
  · rw [List.getD_eq_default _ _ (by omega)]
    decide

theorem InWords.totalDemand_lt (hp : p.InWords) : p.totalDemand < 2 ^ 64 := by
  have hcount := p.platformCount_lt_capacity
  unfold LocationSet.capacity at hcount
  calc p.totalDemand
      ≤ p.demands.length * 2 ^ 32 :=
        List.sum_le_card_nsmul p.demands _ fun d hd => (hp.demands d hd).le
    _ < 2 ^ 64 := by
        rw [demands_length]
        omega

end Problem

/-! ### The frequency of a flight -/

section Frequency

variable {α : Type} {it : Itinerary α} {residual : List ℕ}

theorem Itinerary.exists_servedAt_pos (h : 0 < it.passengerCount) : ∃ i, 0 < it.servedAt i := by
  by_contra hnone
  push Not at hnone
  have hnobody : it.passengerCount = 0 := by
    rw [passengerCount, headcount_eq_sum_range]
    exact Finset.sum_eq_zero fun i _ => Nat.le_zero.mp (hnone i)
  omega

/-- A flight with passengers can be flown as often as is admissible, and no more often, without
serving more of them than wait somewhere. -/
theorem Itinerary.le_admissibleFrequency_iff (hcarries : 0 < it.passengerCount)
    (hlength : it.allocation.length = residual.length) {frequency : ℕ} :
    frequency ≤ it.admissibleFrequency residual ↔
      ∀ i, it.servedAt i * frequency ≤ residual.getD i 0 := by
  constructor
  · intro h i
    calc it.servedAt i * frequency
        ≤ it.servedAt i * it.admissibleFrequency residual := Nat.mul_le_mul_left _ h
      _ ≤ residual.getD i 0 := servedAt_mul_admissibleFrequency_le hlength i
  · intro h
    rw [admissibleFrequency_eq]
    cases hmin : (it.quotients residual).min? with
    | none =>
      obtain ⟨i, hserved⟩ := exists_servedAt_pos hcarries
      have hmem := (mem_quotients hlength).mpr ⟨i, hserved, rfl⟩
      rw [List.min?_eq_none_iff.mp hmin] at hmem
      cases hmem
    | some least =>
      have hleast := (List.min?_eq_some_iff.mp hmin).1
      obtain ⟨i, hserved, rfl⟩ := (mem_quotients hlength).mp hleast
      have := h i
      rwa [Option.getD_some, Nat.le_div_iff_mul_le hserved, Nat.mul_comm]

/-- The frequencies with which a flight could be fixed: once at least, no more often than its own
frequency rounded down if that is not zero, and without serving more passengers than wait. -/
def FractionalFlight.frequencies [Scalar α] (f : FractionalFlight α) (residual : List ℕ)
    (tolerance : α) : Set ℕ :=
  {n | 1 ≤ n ∧ n ≤ max 1 (Scalar.floorWord (f.frequency + tolerance)) ∧
    ∀ i, f.itinerary.servedAt i * n ≤ residual.getD i 0}

theorem FractionalFlight.isGreatest_wholeFrequency [Scalar α] {f : FractionalFlight α}
    (hcarries : 0 < f.itinerary.passengerCount)
    (hlength : f.itinerary.allocation.length = residual.length)
    (hfits : f.itinerary.fitsWithin residual = true) (tolerance : α) :
    IsGreatest (f.frequencies residual tolerance) (f.wholeFrequency residual tolerance) := by
  -- As it fits, the flight is admissible once, so the last bound of the frequency does nothing.
  have hadmissible : 1 ≤ f.itinerary.admissibleFrequency residual := by
    rw [Itinerary.le_admissibleFrequency_iff hcarries hlength]
    intro i
    rw [Nat.mul_one]
    exact Itinerary.servedAt_le_of_fitsWithin hlength hfits i
  have hleast : f.wholeFrequency residual tolerance =
      min (max 1 (Scalar.floorWord (f.frequency + tolerance)))
        (f.itinerary.admissibleFrequency residual) := by
    unfold wholeFrequency
    dsimp only
    omega
  rw [hleast]
  constructor
  · refine ⟨by omega, Nat.min_le_left .., ?_⟩
    rw [← Itinerary.le_admissibleFrequency_iff hcarries hlength]
    exact Nat.min_le_right ..
  · rintro n ⟨-, hrounded, hwaiting⟩
    rw [← Itinerary.le_admissibleFrequency_iff hcarries hlength] at hwaiting
    exact Nat.le_min.mpr ⟨hrounded, hwaiting⟩

end Frequency

namespace Rounding

variable {L S α : Type} [Scalar α] [Lp.Backend L α] [FlightChooser S α] {p : Problem α}
  {settings : Settings α}

/-- What is left and what the plan serves make up the demands, and what is left is counted. -/
structure Balanced (p : Problem α) (r : Rounding L S α) : Prop where
  length : r.residual.length = p.platformCount + 1
  conserved : ∀ i ≤ p.platformCount,
    r.residual.getD i 0 + r.plan.servedAt i = p.demands.getD i 0
  remaining : r.remaining = headcount r.residual
  remaining_lt : r.remaining < 2 ^ 64

/-- How a round fixes a flight: as often as it can, with products that fit into words, and without
a borrow from what is left. -/
structure Counted (settings : Settings α) (r r' : Rounding L S α) (chosen : FractionalFlight α)
    (frequency : ℕ) : Prop where
  plan : r'.plan = r.plan.push ⟨chosen.itinerary, frequency⟩
  greatest : IsGreatest (chosen.frequencies r.residual settings.tolerance) frequency
  frequency_lt : frequency < 2 ^ 32
  taken_lt : ∀ i, chosen.itinerary.servedAt i * frequency < 2 ^ 32
  residual : ∀ i,
    r'.residual.getD i 0 + chosen.itinerary.servedAt i * frequency = r.residual.getD i 0
  remaining : r'.remaining + chosen.itinerary.passengerCount * frequency = r.remaining
  fewer : r'.remaining < r.remaining

omit [Lp.Backend L α] [FlightChooser S α] in
theorem Consistent.waiting_lt {r : Rounding L S α} (hr : r.Consistent p) (hp : p.InWords)
    (i : ℕ) : r.residual.getD i 0 < 2 ^ 32 := by
  by_cases hi : i ≤ p.platformCount
  · have := hr.conserved i hi
    have := hp.demand_lt i
    omega
  · rw [List.getD_eq_default _ _ (by rw [hr.length]; omega)]
    decide

omit [FlightChooser S α] in
theorem Consistent.counted {r : Rounding L S α} (hp : p.InWords) (hr : r.Consistent p)
    {outcome : ColumnGeneration.Outcome α} {solver : SolverState L α} {chosen : FractionalFlight α}
    (hgenerate : ColumnGeneration.generate p settings r.residual r.solver = (.ok outcome, solver))
    (hchosen : chosen ∈ r.choice outcome) (chooser : S) :
    Counted settings r (fix settings { r.relaxed outcome solver with chooser } chosen) chosen
      (chosen.wholeFrequency r.residual settings.tolerance) := by
  obtain ⟨hmem, hcarries, hfits⟩ := mem_choice hgenerate hchosen
  have hseated := ColumnGeneration.generate_seated hr.length hr.stock hgenerate _ hmem
  have hlength := hseated.length.trans hr.length.symm
  have hgreatest := chosen.isGreatest_wholeFrequency hcarries hlength hfits settings.tolerance
  set frequency := chosen.wholeFrequency r.residual settings.tolerance
  obtain ⟨⟨hone, -, htaken⟩, -⟩ := id hgreatest
  have hwaiting := hr.waiting_lt hp
  have hall : chosen.itinerary.passengerCount * frequency ≤ headcount r.residual := by
    simp only [Itinerary.passengerCount, headcount_eq_sum_range, hlength, Finset.sum_mul]
    exact Finset.sum_le_sum fun i _ => htaken i
  rw [← hr.remaining] at hall
  have hremaining : r.remaining - chosen.itinerary.passengerCount * frequency +
      chosen.itinerary.passengerCount * frequency = r.remaining := Nat.sub_add_cancel hall
  refine ⟨rfl, hgreatest, ?_, fun i => (htaken i).trans_lt (hwaiting i), ?_, hremaining, ?_⟩
  · obtain ⟨i, hserved⟩ := Itinerary.exists_servedAt_pos hcarries
    calc frequency
        ≤ chosen.itinerary.servedAt i * frequency := Nat.le_mul_of_pos_left _ hserved
      _ ≤ r.residual.getD i 0 := htaken i
      _ < 2 ^ 32 := hwaiting i
  · intro i
    show (r.residual.mapIdx fun i d => d - chosen.itinerary.servedAt i * frequency).getD i 0 + _ = _
    rw [getD_mapIdx_sub]
    exact Nat.sub_add_cancel (htaken i)
  · show r.remaining - chosen.itinerary.passengerCount * frequency < r.remaining
    have := Nat.mul_pos hcarries hone
    omega

/-- Rounding counts without a carry or a borrow. Between rounds, what is left is what the plan does
not serve yet. No flight that a round looks at has more passengers than a word can count. A round
without an error fixes the flight chosen with the greatest frequency that there can be, and takes
its passengers off what is left. -/
theorem Reached.counts (hp : p.InWords) {lp : L} {memory : TourMemory α} {chooser : S}
    {r : Rounding L S α} (h : Reached p settings (start p ⟨.start lp, memory⟩ chooser) r) :
    r.Balanced p ∧
      (∀ outcome solver,
        ColumnGeneration.generate p settings r.residual r.solver = (.ok outcome, solver) →
          ∀ f ∈ outcome.flights, f.itinerary.passengerCount < 2 ^ 32) ∧
      ∀ r', r.round p settings = (none, r') →
        ∃ outcome solver index chooser chosen frequency,
          ColumnGeneration.generate p settings r.residual r.solver = (.ok outcome, solver) ∧
          FlightChooser.choose r.chooser (r.choice outcome) = (.ok index, chooser) ∧
          (r.choice outcome)[index]? = some chosen ∧ Counted settings r r' chosen frequency := by
  have hr := h.consistent (consistent_start p lp memory chooser)
  refine ⟨?_, ?_, ?_⟩
  · have := hr.progress
    have := hp.totalDemand_lt
    exact ⟨hr.length, hr.conserved, hr.remaining, by omega⟩
  · intro outcome solver hgenerate f hf
    rw [(ColumnGeneration.report_of_generate hgenerate).1] at hf
    obtain ⟨j, hj, -⟩ := MasterProgram.mem_flightsAbove.mp hf
    have hseated := ColumnGeneration.generate_seated hr.length hr.stock hgenerate _
      (List.mem_of_getElem? hj)
    exact hseated.seats.trans_lt hp.seats
  · intro r' hround
    have hstep := round_spec p settings r
    rw [hround] at hstep
    cases hstep with
    | @fixed outcome solver index chooser chosen hgenerate _ hchoose hindex =>
      exact ⟨outcome, solver, index, chooser, chosen, _, hgenerate, hchoose, hindex,
        hr.counted hp hgenerate (List.mem_of_getElem? hindex) chooser⟩

end Rounding

/-! One platform, where as many passengers wait for a single seat as a word can count, and a backend
that reports an infinite frequency. -/

namespace Crowd

def problem : Problem Float where
  platforms := [.depot, ⟨1, 1, 0, 2 ^ 32 - 1⟩]
  distances := ⟨2, #[0, 1, 1, 0], rfl⟩
  capacity := 1
  range := 2
  sound := by decide +kernel

def settings : Settings Float := ⟨1, 0, 0, 1, 1⟩

def first : Rounding (Lp.Scripted Float) ChooseFirst Float :=
  .start problem ⟨.start (.start 1 [.solution 2 [1 / 0] [2]]), .empty⟩ ⟨⟩

/-- The one round flies the seat for everybody who waits. -/
theorem counts_crowd : problem.InWords ∧ ∃ later chosen,
    first.round problem settings = (none, later) ∧
      Rounding.Counted settings first later chosen (2 ^ 32 - 1) ∧ later.remaining = 0 := by
  set later := (first.round problem settings).2
  have hround : first.round problem settings = (none, later) := Prod.ext (by decide +kernel) rfl
  have hwords : problem.InWords := ⟨by decide +kernel, by decide +kernel⟩
  have hreached : Rounding.Reached problem settings first first := .refl
  obtain ⟨-, -, hcounts⟩ := Rounding.Reached.counts hwords hreached
  obtain ⟨-, -, -, -, chosen, frequency, -, -, -, hcounted⟩ := hcounts later hround
  have hfrequency : later.plan.flights.map Flight.frequency = [2 ^ 32 - 1] := by decide +kernel
  rw [hcounted.plan] at hfrequency
  obtain rfl : frequency = 2 ^ 32 - 1 := List.head_eq_of_cons_eq hfrequency
  exact ⟨hwords, later, chosen, hround, hcounted, by decide +kernel⟩

end Crowd

end OffshoreFlights
