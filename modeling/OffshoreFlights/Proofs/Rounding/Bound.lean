import OffshoreFlights.Proofs.Rounding.Dear

/-! The bound of a whole plan. It is the objective of the first relaxation, and when that has
converged, over optimal solutions of its programs, its dual values price everything that a later
round may fly: no plan beats the bound. A first relaxation that stops at the limit on iterations
prices its own columns only, and a later round may find better ones. -/

namespace OffshoreFlights

section Bound

variable {K L S : Type} [Field K] [LinearOrder K] [FloorRing K] [Lp.Backend L K] {p : Problem K}
  {settings : Settings K}

/-! ### The bound -/

/-- Weak duality: where none of its flights is worth more than its tour, a plan costs what its
passengers are worth. -/
theorem Plan.worth_le_objective [IsStrictOrderedRing K] (plan : Plan K) (duals : List K)
    (hflights : ∀ f ∈ plan.flights, f.itinerary.Seated p ∧ 0 ≤ f.itinerary.reducedCost duals) :
    ∑ i ∈ Finset.range (p.platformCount + 1), (plan.servedAt i : K) * duals.getD i 0 ≤
      plan.objective := by
  obtain ⟨flights⟩ := plan
  rw [objective, Scalar.sum_exact]
  unfold servedAt
  dsimp only at hflights ⊢
  induction flights with
  | nil => simp [headcount_eq_sum]
  | cons f flights ih =>
    obtain ⟨hseated, hdear⟩ := hflights f List.mem_cons_self
    have hrest := ih fun f' hf' => hflights f' (List.mem_cons_of_mem f hf')
    rw [Itinerary.reducedCost_eq_sum_range, hseated.length] at hdear
    have hflight := mul_nonneg hdear (Nat.cast_nonneg (α := K) f.frequency)
    set worth := ∑ i ∈ Finset.range (p.platformCount + 1),
      (f.itinerary.servedAt i : K) * duals.getD i 0
    have hsplit : ∑ i ∈ Finset.range (p.platformCount + 1),
        (headcount ((f :: flights).map fun f => f.itinerary.servedAt i * f.frequency) : K) *
          duals.getD i 0 =
        worth * f.frequency + ∑ i ∈ Finset.range (p.platformCount + 1),
          (headcount (flights.map fun f => f.itinerary.servedAt i * f.frequency) : K) *
            duals.getD i 0 := by
      rw [Finset.sum_mul, ← Finset.sum_add_distrib]
      refine Finset.sum_congr rfl fun i _ => ?_
      simp only [List.map_cons, headcount_eq_sum, List.sum_cons]
      push_cast
      ring
    rw [hsplit, List.map_cons, List.sum_cons, Flight.cost]
    linarith

namespace Rounding

variable [IsStrictOrderedRing K] [FlightChooser S K]

/-- What holds between rounds from the first one on: the bound is the objective of the first
relaxation, and the answer that it came from is on record. -/
structure Bounded (p : Problem K) (bound : K) (first : List (Lp.Solve K))
    (r : Rounding (Lp.Audited L K) S K) : Prop extends InOrder p r where
  measured : r.Measured p
  begun : r.rounds ≠ 0
  bound_eq : r.bound = bound
  kept : ∀ s ∈ first, s ∈ r.solver.master.solves

theorem Bounded.round (hsymm : p.Symmetric) (hslack : 0 < settings.rangeSlack) {bound : K}
    {first : List (Lp.Solve K)} {r r' : Rounding (Lp.Audited L K) S K}
    (hremaining : r.remaining ≠ 0) (hr : r.Bounded p bound first)
    (hround : Round p settings r (none, r')) : r'.Bounded p bound first := by
  refine ⟨hr.toInOrder.round hremaining hround, hr.measured.round hsymm hslack hround, ?_, ?_,
    fun s hs => (hr.toInOrder.goesOn hround).kept s (hr.kept s hs)⟩
  · cases hround with
    | fixed => exact Nat.succ_ne_zero _
  · cases hround with
    | fixed =>
      refine Eq.trans ?_ hr.bound_eq
      exact if_neg hr.begun

theorem bounded_of_first {r r' : Rounding (Lp.Audited L K) S K} (hsymm : p.Symmetric)
    (hslack : 0 < settings.rangeSlack) (hremaining : r.remaining ≠ 0) (hr : r.InOrder p)
    (hmeasured : r.Measured p) (hbegin : r.rounds = 0) (hround : Round p settings r (none, r')) :
    ∃ outcome solver,
      ColumnGeneration.generate p settings r.residual r.solver = (.ok outcome, solver) ∧
        r'.Bounded p outcome.objective solver.master.solves := by
  have hinOrder := hr.round hremaining hround
  have hmeasured' := hmeasured.round hsymm hslack hround
  cases hround with
  | @fixed outcome solver index chooser chosen hgenerate hsome hchoose hindex =>
    refine ⟨outcome, solver, hgenerate, hinOrder, hmeasured', Nat.succ_ne_zero _, if_pos hbegin,
      fun s hs => ?_⟩
    show s ∈ (MasterProgram.removeUnfit _ _).2.solves
    rwa [MasterProgram.solves_removeUnfit]

omit [IsStrictOrderedRing K] [FlightChooser S K] in
theorem Consistent.servedAt_le_demand {M : Type} [Lp.Backend M K] {r : Rounding M S K}
    (hr : r.Consistent p) {f : Flight K} (hf : f ∈ r.plan.flights) (i : ℕ) :
    f.itinerary.servedAt i ≤ p.demands.getD i 0 := by
  obtain ⟨hfrequency, -, hseated⟩ := hr.flights f hf
  by_cases hi : i ≤ p.platformCount
  · have hconserved := hr.conserved i hi
    calc f.itinerary.servedAt i
        ≤ f.itinerary.servedAt i * f.frequency := Nat.le_mul_of_pos_right _ hfrequency
      _ ≤ r.plan.servedAt i := le_headcount_of_mem (List.mem_map_of_mem hf)
      _ ≤ p.demands.getD i 0 := by omega
  · have hlength := hseated.length
    rw [Itinerary.servedAt, List.getD_eq_default _ _ (by omega)]
    exact Nat.zero_le _

omit [FlightChooser S K] in
/-- When everybody is served, no plan beats dual values that price the first relaxation, provided
that no flight is worth more than its tour. -/
theorem Bounded.le_objective {outcome : ColumnGeneration.Outcome K}
    {columns : List (Itinerary K)} {first : List (Lp.Solve K)}
    {final : Rounding (Lp.Audited L K) S K} (hfinal : final.Bounded p outcome.objective first)
    (hdone : final.remaining = 0)
    (hpriced : ColumnGeneration.Priced p p.demands outcome columns)
    (hdear : ∀ it : Itinerary K, it.Measured p → it.Seated p →
      (∀ i, it.servedAt i ≤ p.demands.getD i 0) → 0 ≤ it.reducedCost outcome.duals) :
    final.bound ≤ final.plan.objective := by
  have hnobody : headcount final.residual = 0 := hfinal.remaining.symm.trans hdone
  have hserved : ∀ i ≤ p.platformCount, final.plan.servedAt i = p.demands.getD i 0 := by
    intro i hi
    have := getD_le_headcount final.residual i
    have := hfinal.conserved i hi
    omega
  calc final.bound
      = ∑ i ∈ Finset.range (p.platformCount + 1), (final.plan.servedAt i : K) *
          outcome.duals.getD i 0 := by
        rw [hfinal.bound_eq, hpriced.worth]
        refine Finset.sum_congr rfl fun i hi => ?_
        rw [hserved i (Nat.le_of_lt_succ (Finset.mem_range.mp hi))]
    _ ≤ final.plan.objective := by
        refine final.plan.worth_le_objective outcome.duals fun f hf => ?_
        have hseated := (hfinal.flights f hf).2.2
        exact ⟨hseated, hdear _ (hfinal.measured.flights f hf) hseated
          (hfinal.toInOrder.toConsistent.servedAt_le_demand hf)⟩

/-- Over an audited backend, with optimal answers, a run whose first relaxation converges ends with
a plan that does not beat its bound. -/
theorem finish_bound (hsymm : p.Symmetric) (htriangle : p.Triangular)
    (hslack : 0 < settings.rangeSlack) (htolerance : settings.tolerance = 0)
    (hcolumns : 1 ≤ settings.columnsPerIteration) {lp : L}
    (hrows : Lp.Backend.rowCount lp = p.platformCount) {memory : TourMemory K}
    (hmemory : memory.FilledFrom p) {chooser : S} {final : Rounding (Lp.Audited L K) S K}
    (hfinish : finish p settings (start p ⟨.start (Lp.Audited.start lp), memory⟩ chooser) =
      (none, final))
    (hoptimal : ∀ s ∈ final.solver.master.solves, s.Optimal)
    (hconverged : ∀ outcome, (ColumnGeneration.generate p settings p.demands
      ⟨.start (Lp.Audited.start lp), memory⟩).1 = .ok outcome → outcome.ending = .converged) :
    final.bound ≤ final.plan.objective := by
  set first := start p ⟨.start (Lp.Audited.start lp), memory⟩ chooser
  have hfirst : first.InOrder p := inOrder_start hrows memory chooser
  by_cases hremaining : first.remaining = 0
  · rw [finish_of_remaining_eq_zero hremaining] at hfinish
    obtain ⟨-, rfl⟩ := Prod.mk.inj hfinish
    show 0 ≤ Plan.empty.objective
    rw [Plan.objective, Scalar.sum_exact]
    exact le_refl _
  · -- The dual values are those of the first round. What it prices is kept to the end, on record.
    obtain ⟨r, hround, hrest⟩ := exists_round_of_finish hremaining hfinish
    obtain ⟨outcome, solver, hgenerate, hbounded⟩ := bounded_of_first hsymm hslack hremaining
      hfirst (measured_start hmemory) rfl (hround ▸ round_spec p settings first)
    obtain ⟨hfinal, hdone⟩ := finish_of_preserved
      (fun _ _ hremaining hround hr => hr.round hsymm hslack hremaining hround) hbounded hrest
    have hready := ColumnGeneration.generate_ready hfirst.length hfirst.resettable hgenerate
    have hpriced := ColumnGeneration.generate_priced hfirst.length hfirst.resettable hgenerate
      fun s hs => hoptimal s (hfinal.kept s hs)
    refine hfinal.le_objective hdone hpriced fun it hmeasured hseated hload => ?_
    exact ColumnGeneration.dear_of_converged hsymm htriangle hslack htolerance hcolumns hmemory
      (MasterProgram.stocked_start p _) hgenerate (hconverged outcome (congrArg Prod.fst hgenerate))
      hready.toBased hpriced hmeasured hseated hload

omit [IsStrictOrderedRing K] in
theorem generate_audited (residual : List ℕ) (lp : L) (memory : TourMemory K) :
    (ColumnGeneration.generate p settings residual
        ⟨.start (Lp.Audited.start lp), memory⟩).1 =
      (ColumnGeneration.generate p settings residual ⟨.start lp, memory⟩).1 :=
  (SolverState.Alike.generate Lp.Audited.hom_backend.simulation (TourMemory.simulation_eq p _)
    residual ⟨⟨rfl, rfl, rfl, rfl⟩, rfl⟩).1.symm

/-- Over optimal solutions of its programs, the bound of a whole plan is a lower bound if the first
relaxation has converged. The plan costs no less, so the gap is not negative. -/
theorem bound_le_objective (hsymm : p.Symmetric) (htriangle : p.Triangular)
    (hslack : 0 < settings.rangeSlack) (htolerance : settings.tolerance = 0)
    (hcolumns : 1 ≤ settings.columnsPerIteration) {lp : L}
    (hrows : Lp.Backend.rowCount lp = p.platformCount) {memory : TourMemory K}
    (hmemory : memory.FilledFrom p) {chooser : S}
    (hoptimal : ∀ s ∈ answers p settings lp memory chooser, s.Optimal)
    (hconverged : ∀ outcome, (ColumnGeneration.generate p settings p.demands
      ⟨.start lp, memory⟩).1 = .ok outcome → outcome.ending = .converged) {whole : WholePlan K}
    (h : (wholePlan p settings ⟨.start lp, memory⟩ chooser).1 = .ok whole) :
    whole.bound ≤ whole.plan.objective ∧ ∀ gap, whole.gapPercent? = some gap → 0 ≤ gap := by
  have hbound : whole.bound ≤ whole.plan.objective := by
    obtain ⟨r, hfinish, rfl⟩ := wholePlan_eq_ok.mp h
    have haudit := Lp.Audited.hom_backend.map_finish p settings
      (start p ⟨.start (Lp.Audited.start lp), memory⟩ chooser)
    obtain ⟨herror, rfl⟩ := Prod.mk.inj (hfinish.symm.trans haudit)
    exact finish_bound hsymm htriangle hslack htolerance hcolumns hrows hmemory
      (Prod.ext herror.symm rfl) hoptimal fun outcome hgenerate =>
        hconverged outcome ((generate_audited _ _ _).symm.trans hgenerate)
  refine ⟨hbound, fun gap hgap => ?_⟩
  rw [WholePlan.gapPercent?, Plan.gapPercent?] at hgap
  split at hgap
  · cases hgap
  next hpositive =>
    obtain rfl := Option.some.inj hgap
    have := sub_nonneg.mpr hbound
    have := not_le.mp hpositive
    positivity

end Rounding

end Bound

namespace OddCrew

open Problem (oddCrew)

/-! The relaxation of the first round, at 7 units, flies half of the second platform's own flight.
Rounded up, it leaves one passenger for a flight of 4 units in the second round. -/

def before : Rounding (Lp.Audited (Lp.Scripted ℚ) ℚ) ChooseFirst ℚ :=
  .start oddCrew ⟨.start lp, .empty⟩ ⟨⟩

def earlyFlight : FractionalFlight ℚ := ⟨MasterProgram.basisItinerary oddCrew [0, 1, 2] 2, 1 / 2⟩

def lateFlight : FractionalFlight ℚ := ⟨MasterProgram.basisItinerary oddCrew [0, 1, 0] 1, 1⟩

def between (memory : TourMemory ℚ) : Rounding (Lp.Audited (Lp.Scripted ℚ) ℚ) ChooseFirst ℚ :=
  ⟨[0, 1, 0], 1, ⟨[⟨earlyFlight.itinerary, 1⟩]⟩, 7, 1,
    ⟨(master.removeUnfit [0, 1, 0]).2, memory⟩, ⟨⟩⟩

theorem round_before : ∃ memory, memory.FilledFrom oddCrew ∧
    before.round oddCrew settings = (none, between memory) := by
  obtain ⟨memory, hrun⟩ := converges
  have hfilled : (ColumnGeneration.generate oddCrew settings [0, 1, 2]
      ⟨.start lp, .empty⟩).2.memory.FilledFrom oddCrew :=
    ColumnGeneration.generate_filledFrom .empty
  rw [hrun] at hfilled
  refine ⟨memory, hfilled, ?_⟩
  rw [Rounding.round_of_choose (r := before) hrun rfl
    (show (before.choice _)[0]? = some earlyFlight by with_unfolding_all rfl)]
  with_unfolding_all rfl

def lateTerms : Pricing.Terms ℚ := ⟨oddCrew, settings, [0, 1, 0], [0, 4, 0], [1]⟩

def lateMaster : MasterProgram (Lp.Audited (Lp.Scripted ℚ) ℚ) ℚ :=
  ((master.removeUnfit [0, 1, 0]).2.reset oddCrew [0, 1, 0]).solve.2

theorem idle_lateTerms {state : SolverState (Lp.Audited (Lp.Scripted ℚ) ℚ) ℚ}
    (hmemory : state.memory.FilledFrom oddCrew) : (lateTerms.scan state).added = 0 := by
  refine Pricing.Terms.idle_of_dear ⟨by decide, by decide, by decide⟩ symmetric slack_pos
    (hmemory.sound symmetric) fun stops hne hstops _ => ?_
  obtain rfl : stops = [1] := (List.sublist_singleton.mp hstops).resolve_left hne
  show lateTerms.improves (lateTerms.itinerary [1] (oddCrew.optimum {1})) = false
  rw [optimum_first]
  decide +kernel

theorem generate_late {memory : TourMemory ℚ} (hmemory : memory.FilledFrom oddCrew) :
    ColumnGeneration.generate oddCrew settings [0, 1, 0] (between memory).solver =
      (.ok ⟨.converged, 1, lateMaster.objective, lateMaster.flightsAbove 0, lateMaster.duals, 0⟩,
        ⟨lateMaster, (lateTerms.scan ⟨lateMaster, memory⟩).state.memory⟩) := by
  have hbegins : ColumnGeneration.BeginsOn lateTerms (between memory).solver lateMaster :=
    ⟨by decide, rfl, by decide +kernel, rfl, rfl⟩
  exact hbegins.generate_idle (idle_lateTerms hmemory)

def whole : WholePlan ℚ := ⟨⟨[⟨earlyFlight.itinerary, 1⟩, ⟨lateFlight.itinerary, 1⟩]⟩, 7, 2⟩

theorem finish_before : ∃ after, before.finish oddCrew settings = (none, after) ∧
    ⟨after.plan, after.bound, after.rounds⟩ = whole ∧
      after.solver.master.solves = lateMaster.solves := by
  obtain ⟨memory, hmemory, hbefore⟩ := round_before
  have hround := Rounding.round_of_choose (r := between memory) (generate_late hmemory) rfl
    (show ((between memory).choice _)[0]? = some lateFlight by with_unfolding_all rfl)
  refine ⟨_, (Rounding.finish_of_round_eq_none (by decide) hbefore).trans
    ((Rounding.finish_of_round_eq_none Nat.one_ne_zero hround).trans
      (Rounding.finish_of_remaining_eq_zero ?_)), ?_, MasterProgram.solves_removeUnfit _ _⟩
  all_goals with_unfolding_all rfl

theorem bound_le_objective_oddCrew :
    (Rounding.wholePlan oddCrew settings ⟨.start script, .empty⟩ ChooseFirst.mk).1 = .ok whole ∧
      whole.bound = 7 ∧ whole.rounds = 2 ∧ whole.bound ≤ whole.plan.objective ∧
      ∀ gap, whole.gapPercent? = some gap → 0 ≤ gap := by
  obtain ⟨after, hfinish, hafter, hsolves⟩ := finish_before
  have hwhole : (Rounding.wholePlan oddCrew settings ⟨.start script, .empty⟩ ChooseFirst.mk).1 =
      .ok whole := hafter ▸ Lp.Audited.hom_backend.wholePlan_eq_ok hfinish
  refine ⟨hwhole, rfl, rfl, Rounding.bound_le_objective symmetric triangular slack_pos rfl le_rfl
    rfl .empty ?_ ?_ hwhole⟩
  · rw [Rounding.answers_of_finish hfinish, hsolves]
    decide +kernel
  · intro outcome hgenerate
    obtain ⟨memory, hrun⟩ := converges
    have := (Rounding.generate_audited _ _ _).trans hgenerate
    obtain rfl := Except.ok.inj ((congrArg Prod.fst hrun).symm.trans this)
    rfl

end OddCrew

/-! ### The limit on iterations

At the limit on iterations, the objective is that of the columns found so far. -/

namespace Collinear

open Problem (collinear)

/-- The first round stops at the limit with a bound of 11 units. The second one finds a way to serve
two platforms at once, and the plan flies only 10 units. -/
theorem objective_lt_bound : ∃ whole,
    collinear.Symmetric ∧ collinear.Triangular ∧ 0 < settings.rangeSlack ∧
      settings.tolerance = 0 ∧ 1 ≤ settings.columnsPerIteration ∧
      Lp.Backend.rowCount lp = collinear.platformCount ∧
      (∀ s ∈ Rounding.answers collinear settings lp .empty ChooseFirst.mk, s.Optimal) ∧
      (Rounding.wholePlan collinear settings ⟨.start lp, .empty⟩ ChooseFirst.mk).1 = .ok whole ∧
      whole.plan.objective = 10 ∧ whole.bound = 11 ∧ ∃ gap < 0, whole.gapPercent? = some gap := by
  refine ⟨whole, symmetric, by decide +kernel, by decide +kernel, rfl, le_rfl, rfl, ?_,
    wholePlan_eq (.inl rfl), by decide +kernel, rfl, -100 / 11, by decide +kernel,
    by decide +kernel⟩
  rw [Rounding.answers_collinear (.inl rfl)]
  decide +kernel

end Collinear

end OffshoreFlights
