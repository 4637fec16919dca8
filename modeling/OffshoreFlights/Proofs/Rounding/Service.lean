import Mathlib.Algebra.BigOperators.Ring.Finset
import OffshoreFlights.Proofs.ColumnGeneration.Pairs

/-! Rounding serves every passenger exactly once, whatever the LP backend reports and whichever
flights are chosen: what the plan serves and what is left always make up the demands, and a flight
is fixed only as often as all its passengers still wait. -/

namespace OffshoreFlights

/-- The number of passengers that a plan serves at a location. -/
def Plan.servedAt {α : Type} (plan : Plan α) (id : ℕ) : ℕ :=
  headcount (plan.flights.map fun f => f.itinerary.servedAt id * f.frequency)

theorem Plan.servedAt_push {α : Type} (plan : Plan α) (f : Flight α) (id : ℕ) :
    (plan.push f).servedAt id = plan.servedAt id + f.itinerary.servedAt id * f.frequency := by
  simp [servedAt, push, headcount_eq_sum]

section Fit

variable {α : Type} {it : Itinerary α} {residual : List ℕ}

theorem Itinerary.servedAt_le_of_fitsWithin (hlength : it.allocation.length = residual.length)
    (h : it.fitsWithin residual = true) (i : ℕ) : it.servedAt i ≤ residual.getD i 0 := by
  by_cases hi : i < residual.length
  · have hall := List.all_eq_true.mp h (it.allocation[i], residual[i])
      (List.mem_iff_getElem.mpr ⟨i, by simp; omega, by simp⟩)
    rw [servedAt, List.getD_eq_getElem _ _ (by omega), List.getD_eq_getElem _ _ hi]
    exact of_decide_eq_true hall
  · rw [servedAt, List.getD_eq_default _ _ (by omega)]
    exact Nat.zero_le _

/-- How often all passengers of a location could be flown before nobody waits there, for each
location that is served. -/
def Itinerary.quotients (it : Itinerary α) (residual : List ℕ) : List ℕ :=
  ((it.allocation.zip residual).filter fun pair => decide (0 < pair.1)).map fun pair =>
    pair.2 / pair.1

theorem Itinerary.admissibleFrequency_eq (it : Itinerary α) (residual : List ℕ) :
    it.admissibleFrequency residual = (it.quotients residual).min?.getD 1 := rfl

theorem Itinerary.mem_quotients (hlength : it.allocation.length = residual.length) {q : ℕ} :
    q ∈ it.quotients residual ↔ ∃ i, 0 < it.servedAt i ∧ residual.getD i 0 / it.servedAt i = q := by
  simp only [quotients, List.mem_map, List.mem_filter, decide_eq_true_eq]
  constructor
  · rintro ⟨pair, ⟨hpair, hserved⟩, rfl⟩
    obtain ⟨i, hi, rfl⟩ := List.mem_iff_getElem.mp hpair
    rw [List.length_zip] at hi
    rw [List.getElem_zip] at hserved ⊢
    refine ⟨i, ?_, ?_⟩ <;> rw [servedAt, List.getD_eq_getElem _ _ (by omega)]
    · exact hserved
    · rw [List.getD_eq_getElem _ _ (by omega)]
  · rintro ⟨i, hserved, rfl⟩
    have hi : i < it.allocation.length := by
      by_contra hi
      rw [servedAt, List.getD_eq_default _ _ (by omega)] at hserved
      omega
    refine ⟨(it.servedAt i, residual.getD i 0), ⟨?_, hserved⟩, rfl⟩
    rw [servedAt, List.getD_eq_getElem _ _ hi, List.getD_eq_getElem _ _ (hlength ▸ hi)]
    exact List.mem_iff_getElem.mpr ⟨i, by simp; omega, List.getElem_zip⟩

/-- As often as is admissible, no location is served more passengers than wait there. -/
theorem Itinerary.servedAt_mul_admissibleFrequency_le
    (hlength : it.allocation.length = residual.length) (i : ℕ) :
    it.servedAt i * it.admissibleFrequency residual ≤ residual.getD i 0 := by
  by_cases hserved : 0 < it.servedAt i
  · have hmem := (mem_quotients hlength).mpr ⟨i, hserved, rfl⟩
    rw [admissibleFrequency_eq]
    cases hleast : (it.quotients residual).min? with
    | none =>
      rw [List.min?_eq_none_iff.mp hleast] at hmem
      cases hmem
    | some least =>
      have hleast := (List.min?_eq_some_iff.mp hleast).2 _ hmem
      exact (Nat.mul_le_mul_left _ hleast).trans (Nat.mul_div_le _ _)
  · rw [Nat.eq_zero_of_not_pos hserved, Nat.zero_mul]
    exact Nat.zero_le _

theorem FractionalFlight.servedAt_mul_wholeFrequency_le [Scalar α] {f : FractionalFlight α}
    (hlength : f.itinerary.allocation.length = residual.length)
    (h : f.itinerary.fitsWithin residual = true) (tolerance : α) (i : ℕ) :
    f.itinerary.servedAt i * f.wholeFrequency residual tolerance ≤ residual.getD i 0 := by
  unfold wholeFrequency
  set rounded := max (Scalar.floorWord (f.frequency + tolerance)) 1
  set most := f.itinerary.admissibleFrequency residual
  by_cases hone : min rounded most ≤ 1
  · rw [Nat.max_eq_right hone, Nat.mul_one]
    exact Itinerary.servedAt_le_of_fitsWithin hlength h i
  · rw [Nat.max_eq_left (by omega)]
    calc f.itinerary.servedAt i * min rounded most
        ≤ f.itinerary.servedAt i * most := Nat.mul_le_mul_left _ (Nat.min_le_right _ _)
      _ ≤ residual.getD i 0 := Itinerary.servedAt_mul_admissibleFrequency_le hlength i

end Fit

/-- What is left when passengers are taken off everywhere, no more than wait there. -/
theorem getD_mapIdx_sub (residual : List ℕ) (taken : ℕ → ℕ) (i : ℕ) :
    (residual.mapIdx fun i d => d - taken i).getD i 0 = residual.getD i 0 - taken i := by
  by_cases hi : i < residual.length
  · rw [List.getD_eq_getElem _ _ (by simpa using hi), List.getElem_mapIdx,
      List.getD_eq_getElem _ _ hi]
  · rw [List.getD_eq_default _ _ (by simpa using hi), List.getD_eq_default _ _ (by omega),
      Nat.zero_sub]

theorem headcount_mapIdx_sub {residual : List ℕ} {taken : ℕ → ℕ}
    (h : ∀ i, taken i ≤ residual.getD i 0) :
    headcount (residual.mapIdx fun i d => d - taken i) =
      headcount residual - ∑ i ∈ Finset.range residual.length, taken i := by
  simp only [headcount_eq_sum_range, List.length_mapIdx, getD_mapIdx_sub]
  exact Finset.sum_tsub_distrib _ fun i _ => h i

namespace Rounding

variable {L S α : Type} [Scalar α] [Lp.Backend L α] [FlightChooser S α] {p : Problem α}
  {settings : Settings α}

/-- What holds between rounds. -/
structure Consistent (p : Problem α) (r : Rounding L S α) : Prop where
  length : r.residual.length = p.platformCount + 1
  conserved : ∀ i ≤ p.platformCount,
    r.residual.getD i 0 + r.plan.servedAt i = p.demands.getD i 0
  remaining : r.remaining = headcount r.residual
  rounds : r.rounds = r.plan.flights.length
  progress : r.rounds + r.remaining ≤ p.totalDemand
  flights : ∀ f ∈ r.plan.flights,
    1 ≤ f.frequency ∧ 1 ≤ f.itinerary.passengerCount ∧ f.itinerary.Seated p
  stock : ∀ it ∈ r.solver.master.itineraries, it.Seated p

omit [FlightChooser S α] in
theorem consistent_start (p : Problem α) (lp : L) (memory : TourMemory α) (chooser : S) :
    Consistent p (start p ⟨.start lp, memory⟩ chooser) := by
  refine ⟨p.demands_length, fun i _ => rfl, rfl, rfl, ?_, ?_, ?_⟩
  · show 0 + p.totalDemand ≤ p.totalDemand
    omega
  · intro f hf
    cases hf
  · intro it hit
    cases hit

omit [Lp.Backend L α] [FlightChooser S α] in
theorem Consistent.depot {r : Rounding L S α} (hr : r.Consistent p) : r.residual.getD 0 0 = 0 := by
  have hdepot := hr.conserved 0 (Nat.zero_le _)
  rw [p.demands_depot] at hdepot
  omega

omit [Lp.Backend L α] [FlightChooser S α] in
theorem Consistent.exists_waiting {r : Rounding L S α} (hr : r.Consistent p)
    (hremaining : r.remaining ≠ 0) : ∃ row < p.platformCount, 0 < r.residual.getD (row + 1) 0 :=
  exists_getD_pos hr.length hr.depot
    (Nat.pos_of_ne_zero fun h => hremaining (hr.remaining.trans h))

omit [FlightChooser S α] in
/-- The flight of a round that ends without an error is one of an itinerary in the master program,
which fits what is left. -/
theorem mem_choice {r : Rounding L S α} {outcome : ColumnGeneration.Outcome α}
    {solver : SolverState L α} {chosen : FractionalFlight α}
    (hgenerate : ColumnGeneration.generate p settings r.residual r.solver = (.ok outcome, solver))
    (h : chosen ∈ r.choice outcome) :
    chosen.itinerary ∈ solver.master.itineraries ∧ 0 < chosen.itinerary.passengerCount ∧
      chosen.itinerary.fitsWithin r.residual = true := by
  obtain ⟨hflight, hfit⟩ := List.mem_filter.mp h
  rw [Bool.and_eq_true, decide_eq_true_eq] at hfit
  rw [(ColumnGeneration.report_of_generate hgenerate).1] at hflight
  obtain ⟨j, hj, -⟩ := MasterProgram.mem_flightsAbove.mp hflight
  exact ⟨List.mem_of_getElem? hj, hfit⟩

theorem Consistent.round {r r' : Rounding L S α} (hremaining : r.remaining ≠ 0)
    (hr : r.Consistent p) (hround : Round p settings r (none, r')) : r'.Consistent p := by
  cases hround with
  | @fixed outcome solver index chooser chosen hgenerate _ _ hindex =>
    obtain ⟨hmem, hpassengers, hfits⟩ := mem_choice hgenerate (List.mem_of_getElem? hindex)
    have hstock := ColumnGeneration.generate_seated hr.length hr.stock hgenerate
    have hseated := hstock chosen.itinerary hmem
    set frequency := chosen.wholeFrequency r.residual settings.tolerance with hfrequency
    have hone : 1 ≤ frequency := one_le_wholeFrequency _ _ _
    have htaken : ∀ i, chosen.itinerary.servedAt i * frequency ≤ r.residual.getD i 0 :=
      chosen.servedAt_mul_wholeFrequency_le (hseated.length.trans hr.length.symm) hfits
        settings.tolerance
    have hheadcount := headcount_mapIdx_sub htaken
    rw [← Finset.sum_mul, hr.length, ← hseated.length] at hheadcount
    refine ⟨?_, fun i hi => ?_, ?_, ?_, ?_, ?_, ?_⟩
    · show (r.residual.mapIdx _).length = _
      rw [List.length_mapIdx, hr.length]
    · show (r.residual.mapIdx fun i d => d - chosen.itinerary.servedAt i * frequency).getD i 0 +
        (r.plan.push ⟨chosen.itinerary, frequency⟩).servedAt i = _
      have := hr.conserved i hi
      have := htaken i
      rw [getD_mapIdx_sub, Plan.servedAt_push]
      show _ - _ + (_ + chosen.itinerary.servedAt i * frequency) = _
      omega
    · show r.remaining - chosen.itinerary.passengerCount * frequency =
        headcount (r.residual.mapIdx fun i d => d - chosen.itinerary.servedAt i * frequency)
      rw [hheadcount, hr.remaining, Itinerary.passengerCount,
        headcount_eq_sum_range chosen.itinerary.allocation]
      rfl
    · show r.rounds + 1 = (r.plan.flights ++ [_]).length
      rw [List.length_append, List.length_singleton, hr.rounds]
    · show r.rounds + 1 + (r.remaining - chosen.itinerary.passengerCount * frequency) ≤ _
      have := hr.progress
      have := Nat.mul_pos hpassengers hone
      omega
    · show ∀ f ∈ r.plan.flights ++ [⟨chosen.itinerary, frequency⟩], _
      intro f hf
      rcases List.mem_append.mp hf with hf | hf
      · exact hr.flights f hf
      · obtain rfl := List.mem_singleton.mp hf
        exact ⟨hone, hpassengers, hseated⟩
    · exact fun it hit => hstock it (MasterProgram.mem_itineraries_removeUnfit hit)

theorem Reached.consistent {r q : Rounding L S α} (h : Reached p settings r q)
    (hr : r.Consistent p) : q.Consistent p := by
  induction h with
  | refl => exact hr
  | next _ hremaining hround ih => exact ih.round hremaining (hround ▸ round_spec p settings _)

omit [FlightChooser S α] [Scalar α] [Lp.Backend L α] in
theorem served_of_servedAt {plan : Plan α} {demands : List ℕ}
    (h : ∀ i < demands.length, plan.servedAt i = demands.getD i 0) :
    plan.served demands.length = demands := by
  refine List.ext_getElem (by simp [Plan.served]) fun i _ hi => ?_
  rw [← List.getD_eq_getElem _ 0 hi, ← h i hi]
  simp [Plan.served, Plan.servedAt]

/-- A whole plan serves the demands exactly. Each of its flights carries at least one passenger and
at most as many as there are seats, none of them for the depot, and every round has fixed one of the
flights. -/
theorem wholePlan_serves {lp : L} {memory : TourMemory α} {chooser : S} {whole : WholePlan α}
    (h : (wholePlan p settings ⟨.start lp, memory⟩ chooser).1 = .ok whole) :
    whole.plan.served (p.platformCount + 1) = p.demands ∧
      (∀ f ∈ whole.plan.flights, 1 ≤ f.frequency ∧ 1 ≤ f.itinerary.passengerCount ∧
        f.itinerary.passengerCount ≤ p.capacity ∧ f.itinerary.servedAt 0 = 0) ∧
      whole.rounds = whole.plan.flights.length ∧ whole.rounds ≤ p.totalDemand := by
  obtain ⟨r, hfinish, rfl⟩ := wholePlan_eq_ok.mp h
  obtain ⟨hr, hdone⟩ := finish_of_preserved
    (fun _ _ hremaining hround hr => hr.round hremaining hround)
    (consistent_start p lp memory chooser) hfinish
  have hnobody : headcount r.residual = 0 := hr.remaining.symm.trans hdone
  refine ⟨?_, fun f hf => ?_, hr.rounds, ?_⟩
  · rw [← p.demands_length]
    refine served_of_servedAt fun i hi => ?_
    have hconserved := hr.conserved i (Nat.le_of_lt_succ (by simpa using hi))
    have := getD_le_headcount r.residual i
    show r.plan.servedAt i = _
    omega
  · obtain ⟨hfrequency, hpassengers, hseated⟩ := hr.flights f hf
    exact ⟨hfrequency, hpassengers, hseated.seats, hseated.depot⟩
  · have := hr.progress
    show r.rounds ≤ _
    omega

/-- Two rounds serve three platforms. The itinerary of the second flight was generated. -/
theorem wholePlan_serves_collinear :
    (wholePlan Problem.collinear Collinear.settings ⟨.start Collinear.lp, .empty⟩
        ChooseFirst.mk).1 = .ok Collinear.whole ∧
      Collinear.innerPair ∈ Collinear.whole.plan.flights.map Flight.itinerary ∧
      Collinear.whole.plan.served 4 = [0, 1, 2, 1] ∧
      (∀ f ∈ Collinear.whole.plan.flights, 1 ≤ f.frequency ∧ 1 ≤ f.itinerary.passengerCount ∧
        f.itinerary.passengerCount ≤ 2 ∧ f.itinerary.servedAt 0 = 0) ∧
      Collinear.whole.rounds = Collinear.whole.plan.flights.length ∧
      Collinear.whole.rounds ≤ 4 := by
  have hwhole := Collinear.wholePlan_eq (.inl rfl)
  exact ⟨hwhole, List.mem_cons_of_mem _ List.mem_cons_self, wholePlan_serves hwhole⟩

end Rounding

end OffshoreFlights
