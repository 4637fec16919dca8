import OffshoreFlights.Proofs.Rounding.Service

/-! The lengths in a whole plan are true. Every flight is charged the shortest tour through its
platforms, whether the length was read off the table, found by a search or recalled, and in whatever
round. Only flights to a single platform can be beyond the range. -/

namespace OffshoreFlights

variable {K L S : Type} [Field K] [LinearOrder K] [FloorRing K] {p : Problem K}
  {settings : Settings K} {residual : List ℕ}

/-- An itinerary that serves all its platforms and whose length is true. If it is beyond the range,
it flies to one platform only. -/
structure Itinerary.Measured (p : Problem K) (it : Itinerary K) : Prop where
  located : ∀ i ∈ it.platforms.members, 1 ≤ i ∧ i ≤ p.platformCount
  served : it.support = it.platforms.members
  length : it.tourLength = p.optimum it.platforms.members
  alone : p.range < it.tourLength → ∃ i, it.platforms.members = {i}

theorem Itinerary.Limited.measured {it : Itinerary K} (h : it.Limited p settings)
    (hslack : 0 < settings.rangeSlack) : it.Measured p where
  located := h.located
  served := h.served
  length := h.tourLength_eq hslack
  alone hbeyond := absurd (h.within hslack) (not_le.mpr (h.tourLength_eq hslack ▸ hbeyond))

theorem MasterProgram.measured_basisItinerary (residual : List ℕ) {j : ℕ} (h1 : 1 ≤ j)
    (hj : j ≤ p.platformCount) : (basisItinerary p residual j).Measured p := by
  have haskable : p.Askable [j] := ⟨List.nodup_singleton j, by simpa using hj⟩
  have hmembers : (basisItinerary p residual j).platforms.members = {j} :=
    TourMemory.members_of_askable haskable
  refine ⟨?_, ?_, ?_, fun _ => ⟨j, hmembers⟩⟩
  · rw [hmembers]
    simpa using ⟨h1, hj⟩
  · rw [hmembers]
    exact support_basisItinerary p residual hj
  · rw [hmembers, Problem.optimum, Tour.optimum_singleton]
    rfl

variable [IsStrictOrderedRing K] [Lp.Backend L K]

/-- A state in which the memory knows the tours of one problem and all lengths are true. -/
structure SolverState.Measured (p : Problem K) (st : SolverState L K) : Prop where
  memory : st.memory.FilledFrom p
  itineraries : ∀ it ∈ st.master.itineraries, it.Measured p

theorem ColumnGeneration.preserved_measured (hsymm : p.Symmetric)
    (hslack : 0 < settings.rangeSlack) (residual : List ℕ) :
    Preserved (L := L) p settings residual fun st => st.Measured p := by
  refine ⟨fun st h => ⟨h.memory, h.itineraries⟩, fun t stops scan scan' hp hs hr ht hvisit h => ?_⟩
  have hfilled := (preserved_filledFrom (L := L) p settings residual).visit t stops scan scan' hp hs
    hr ht hvisit h.memory
  subst hp hs
  obtain ⟨added, hadded, hlimited⟩ := hvisit.adds ht hsymm (h.memory.sound hsymm)
  refine ⟨hfilled, fun it hit => ?_⟩
  rw [hadded] at hit
  rcases List.mem_append.mp hit with hit | hit
  · exact h.itineraries it hit
  · exact (hlimited it hit).measured hslack

theorem ColumnGeneration.generate_measured (hsymm : p.Symmetric) (hslack : 0 < settings.rangeSlack)
    (residual : List ℕ) {state : SolverState L K} (h : state.Measured p) :
    (generate p settings residual state).2.Measured p := by
  refine generate_preserves (preserved_measured hsymm hslack residual) (fun _ => ⟨h.memory, ?_⟩)
    fun _ => h
  intro it hit
  rcases MasterProgram.mem_itineraries_reset hit with ⟨j, h1, hj, rfl⟩ | hit
  · exact MasterProgram.measured_basisItinerary residual h1 hj
  · exact h.itineraries it hit

namespace Rounding

variable [FlightChooser S K]

structure Measured (p : Problem K) (r : Rounding L S K) : Prop where
  solver : r.solver.Measured p
  flights : ∀ f ∈ r.plan.flights, f.itinerary.Measured p

omit [IsStrictOrderedRing K] [FlightChooser S K] in
theorem measured_start {lp : L} {memory : TourMemory K} (hmemory : memory.FilledFrom p)
    {chooser : S} : (start p ⟨.start lp, memory⟩ chooser).Measured p :=
  ⟨⟨hmemory, fun _ hit => absurd hit List.not_mem_nil⟩, fun _ hf => absurd hf List.not_mem_nil⟩

theorem Measured.round (hsymm : p.Symmetric) (hslack : 0 < settings.rangeSlack)
    {r r' : Rounding L S K} (hr : r.Measured p) (hround : Round p settings r (none, r')) :
    r'.Measured p := by
  cases hround with
  | @fixed outcome solver index chooser chosen hgenerate _ _ hindex =>
    have hsolver : solver.Measured p := by
      have := ColumnGeneration.generate_measured hsymm hslack r.residual hr.solver
      rwa [hgenerate] at this
    have hchosen := (mem_choice hgenerate (List.mem_of_getElem? hindex)).1
    refine ⟨⟨hsolver.memory, fun it hit => ?_⟩, fun f hf => ?_⟩
    · exact hsolver.itineraries it (MasterProgram.mem_itineraries_removeUnfit hit)
    · rcases List.mem_append.mp hf with hf | hf
      · exact hr.flights f hf
      · obtain rfl := List.mem_singleton.mp hf
        exact hsolver.itineraries chosen.itinerary hchosen

/-- In a whole plan, every flight has the length of the shortest tour through its platforms, so that
the objective is the least distance for which these flights can be flown. A flight beyond the range
goes to one platform, whose own round trip is beyond the range. -/
theorem wholePlan_lengths (hsymm : p.Symmetric) (hslack : p.range < p.range + settings.rangeSlack)
    {lp : L} {memory : TourMemory K} (hmemory : memory.FilledFrom p) {chooser : S}
    {whole : WholePlan K}
    (h : (wholePlan p settings ⟨.start lp, memory⟩ chooser).1 = .ok whole) :
    (∀ f ∈ whole.plan.flights,
      f.itinerary.tourLength = p.optimum f.itinerary.platforms.members ∧
      (p.range < f.itinerary.tourLength → ∃ i, 1 ≤ i ∧ i ≤ p.platformCount ∧
        f.itinerary.platforms.members = {i} ∧ p.range < p.distance 0 i + p.distance i 0)) ∧
      whole.plan.objective = (whole.plan.flights.map fun f =>
        p.optimum f.itinerary.platforms.members * (f.frequency : K)).sum := by
  obtain ⟨r, hfinish, rfl⟩ := wholePlan_eq_ok.mp h
  obtain ⟨hr, -⟩ := finish_of_preserved
    (fun _ _ _ hround hr => hr.round hsymm (lt_add_iff_pos_right p.range |>.mp hslack) hround)
    (measured_start hmemory) hfinish
  refine ⟨fun f hf => ⟨(hr.flights f hf).length, fun hbeyond => ?_⟩, ?_⟩
  · obtain ⟨i, hmembers⟩ := (hr.flights f hf).alone hbeyond
    obtain ⟨h1, hi⟩ := (hr.flights f hf).located i (by simp [hmembers])
    refine ⟨i, h1, hi, hmembers, ?_⟩
    rwa [(hr.flights f hf).length, hmembers, Problem.optimum, Tour.optimum_singleton] at hbeyond
  · rw [Plan.objective, Scalar.sum_exact]
    refine congrArg List.sum (List.map_congr_left fun f hf => ?_)
    rw [Flight.cost, (hr.flights f hf).length]

theorem wholePlan_lengths_collinear :
    (wholePlan Problem.collinear Collinear.settings ⟨.start Collinear.lp, .empty⟩
        ChooseFirst.mk).1 = .ok Collinear.whole ∧
      (∀ f ∈ Collinear.whole.plan.flights,
        f.itinerary.tourLength = Problem.collinear.optimum f.itinerary.platforms.members ∧
        (6 < f.itinerary.tourLength → ∃ i, 1 ≤ i ∧ i ≤ 3 ∧
          f.itinerary.platforms.members = {i} ∧
            6 < Problem.collinear.distance 0 i + Problem.collinear.distance i 0)) ∧
      Collinear.whole.plan.objective = (Collinear.whole.plan.flights.map fun f =>
        Problem.collinear.optimum f.itinerary.platforms.members * (f.frequency : ℚ)).sum := by
  have hwhole := Collinear.wholePlan_eq (.inl rfl)
  exact ⟨hwhole, wholePlan_lengths Collinear.symmetric (by decide +kernel) .empty hwhole⟩

end Rounding

end OffshoreFlights
