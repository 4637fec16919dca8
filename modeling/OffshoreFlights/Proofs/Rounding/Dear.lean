import OffshoreFlights.Proofs.ColumnGeneration.Ends
import OffshoreFlights.Proofs.Relaxation
import OffshoreFlights.Proofs.Rounding.Measured
import OffshoreFlights.Proofs.Rounding.Progress

/-! Relaxations over optimal solutions. The dual values that column generation reports are worth its
objective, and no itinerary in the master program is worth more than its tour. When it has
converged, this is so for every flight of a later round, whether or not an itinerary for it was
found. -/

namespace OffshoreFlights

variable {K L S : Type} [Field K] [LinearOrder K] [FloorRing K] [Lp.Backend L K] {p : Problem K}
  {settings : Settings K} {residual : List ℕ}

/-! ### Dual values of a relaxation -/

/-- The backend was asked to solve the program as it stands, and reported a certain objective and
certain dual values. -/
def MasterProgram.Reports (m : MasterProgram (Lp.Audited L K) K) (objective : K)
    (duals : List K) : Prop :=
  ∃ s ∈ m.solves, s.program = m.program ∧ s.objective = objective ∧
    ∀ row < m.basisSize, s.dual row = duals.getD (row + 1) 0

theorem MasterProgram.reports_of_solve {m m' : MasterProgram (Lp.Audited L K) K}
    {answer : Except (Error K) Unit} (h : m.solve = (answer, m')) :
    m'.Reports m'.objective m'.duals := by
  obtain ⟨s, -, hsolves, hsolved⟩ := solvedAs_of_solve h
  refine ⟨s, hsolves ▸ List.mem_cons_self, hsolved.program, hsolved.objective, fun row hrow => ?_⟩
  rw [duals, List.getD_cons_succ, List.getD_eq_getElem _ _ (by simpa using hrow), hsolved.dual]
  simp

namespace ColumnGeneration

theorem generate_reports {state final : SolverState (Lp.Audited L K) K} {outcome : Outcome K}
    (hrun : generate p settings residual state = (.ok outcome, final)) :
    final.master.Reports outcome.objective outcome.duals := by
  obtain ⟨-, hrefused⟩ | ⟨g, -, -, hends⟩ := generate_ends p settings residual state
  · rw [hrefused] at hrun
    cases hrun
  · rw [hrun] at hends
    cases hends with
    | @converged master hsolve hidle =>
      have hmaster : (g.scanAfter p settings residual master).state.master = master :=
        Pricing.Terms.master_of_idle_scan hidle
      rw [outcome_of_idle hidle, hmaster]
      exact MasterProgram.reports_of_solve hsolve
    | limitReached _ _ _ hlast => exact MasterProgram.reports_of_solve hlast

/-- Dual values that price a relaxation: they are worth its objective, and none of its itineraries
is worth more than its tour. -/
structure Priced (p : Problem K) (residual : List ℕ) (outcome : Outcome K)
    (columns : List (Itinerary K)) : Prop where
  worth : outcome.objective = ∑ i ∈ Finset.range (p.platformCount + 1),
    (residual.getD i 0 : K) * outcome.duals.getD i 0
  dear : ∀ it ∈ columns, 0 ≤ it.reducedCost outcome.duals

theorem generate_priced (hlength : residual.length = p.platformCount + 1)
    {state final : SolverState (Lp.Audited L K) K} (h : state.master.Resettable p residual)
    {outcome : Outcome K} (hrun : generate p settings residual state = (.ok outcome, final))
    (hoptimal : ∀ s ∈ final.master.solves, s.Optimal) :
    Priced p residual outcome final.master.itineraries := by
  obtain ⟨s, hs, hprogram, hobjective, hduals⟩ := generate_reports hrun
  have hready := generate_ready hlength h hrun
  have hdepot := (report_of_generate hrun).2
  have hdual : ∀ row < p.platformCount, s.dual row = outcome.duals.getD (row + 1) 0 :=
    fun row hrow => hduals row (by rw [hready.size]; exact hrow)
  have hrows : s.program.rhs.length = p.platformCount := by rw [hprogram, hready.rhs_length]
  constructor
  · rw [← hobjective, (hoptimal s hs).worth, hrows, Finset.sum_range_succ', hdepot, mul_zero,
      add_zero]
    refine Finset.sum_congr rfl fun row hrow => ?_
    have hrow := Finset.mem_range.mp hrow
    rw [hprogram, hready.rhs_getD hrow, hdual row hrow]
  · intro it hit
    have hseated := (hready.carries hit).1
    have hcolumn := (hoptimal s hs).dual it.column (by
      rw [hprogram, hready.inStep]
      exact List.mem_map_of_mem hit)
    rw [hrows] at hcolumn
    rw [← Itinerary.reducedCost_column hseated.length hdepot]
    exact hcolumn.trans_eq (Lp.Column.reducedCost_congr hdual)

end ColumnGeneration

/-! ### Flights of later rounds -/

namespace Itinerary

variable {it : Itinerary K}

omit [Lp.Backend L K] [LinearOrder K] [FloorRing K] in
theorem sum_support (it : Itinerary K) (y : ℕ → K) :
    ∑ i ∈ it.support, (it.servedAt i : K) * y i =
      ∑ i ∈ Finset.range it.allocation.length, (it.servedAt i : K) * y i := by
  refine Finset.sum_subset (Finset.filter_subset _ _) fun i _ hi => ?_
  rw [mem_support, Nat.not_lt, Nat.le_zero] at hi
  rw [hi, Nat.cast_zero, zero_mul]

def Measured.sortie (h : it.Measured p) (hseated : it.Seated p) (hrange : it.tourLength ≤ p.range) :
    p.Sortie where
  platforms := it.platforms.members
  load := it.servedAt
  located := h.located
  within_range := h.length ▸ hrange
  supported i hi := by
    rw [← h.served, mem_support, Nat.not_lt, Nat.le_zero] at hi
    exact hi
  seated := by
    rw [← h.served]
    calc ∑ i ∈ it.support, it.servedAt i
        ≤ ∑ i ∈ Finset.range it.allocation.length, it.servedAt i :=
          Finset.sum_le_sum_of_subset (Finset.filter_subset _ _)
      _ = it.passengerCount := (headcount_eq_sum_range it.allocation).symm
      _ ≤ p.capacity := hseated.seats

theorem Measured.reducedCost_sortie (h : it.Measured p) (hseated : it.Seated p)
    (hrange : it.tourLength ≤ p.range) (duals : List K) :
    ((h.sortie hseated hrange).reducedCost fun i => duals.getD i 0) = it.reducedCost duals := by
  rw [reducedCost_eq_sum_range, ← it.sum_support, h.length, h.served]
  rfl

/-- A flight to one platform is no less dear than the platform's own itinerary. -/
theorem Measured.dear_of_single [IsStrictOrderedRing K] (h : it.Measured p) (hseated : it.Seated p)
    {i : ℕ} (hi : it.platforms.members = {i}) (hload : it.servedAt i ≤ residual.getD i 0)
    {duals : List K}
    (hown : 0 ≤ (MasterProgram.basisItinerary p residual i).reducedCost duals) :
    0 ≤ it.reducedCost duals := by
  have hlocated := h.located i (by simp [hi])
  have hdistance : 0 ≤ it.tourLength := h.length ▸ p.optimum_nonneg _
  have hlength : (MasterProgram.basisItinerary p residual i).tourLength = it.tourLength := by
    rw [h.length, hi, Problem.optimum, Tour.optimum_singleton]
    rfl
  have hfewer : it.servedAt i ≤ (MasterProgram.basisItinerary p residual i).servedAt i := by
    have hseats : it.servedAt i ≤ p.capacity := (getD_le_headcount _ _).trans hseated.seats
    rw [MasterProgram.servedAt_basisItinerary p residual hlocated.2, if_pos rfl]
    omega
  rw [reducedCost_eq_sum_range, ← sum_support, MasterProgram.support_basisItinerary p residual
    hlocated.2, Finset.sum_singleton, hlength] at hown
  rw [reducedCost_eq_sum_range, ← sum_support, h.served, hi, Finset.sum_singleton]
  rcases le_total 0 (duals.getD i 0) with hworth | hworth
  · have := mul_le_mul_of_nonneg_right (Nat.cast_le (α := K).mpr hfewer) hworth
    linarith
  · have := mul_nonpos_of_nonneg_of_nonpos (Nat.cast_nonneg (α := K) (it.servedAt i)) hworth
    linarith

end Itinerary

/-- After convergence to dual values that price the relaxation, no flight for some of the residual
demands is worth more than its tour, whether or not an itinerary for it was found. -/
theorem ColumnGeneration.dear_of_converged [IsStrictOrderedRing K] (hsymm : p.Symmetric)
    (htriangle : p.Triangular) (hslack : 0 < settings.rangeSlack)
    (htolerance : settings.tolerance = 0) (hcolumns : 1 ≤ settings.columnsPerIteration)
    {state final : SolverState L K}
    (hmemory : state.memory.FilledFrom p) (hstocked : state.master.Stocked p)
    {outcome : Outcome K} (hrun : generate p settings residual state = (.ok outcome, final))
    (hending : outcome.ending = .converged) (hbased : final.master.Based p residual)
    (hpriced : Priced p residual outcome final.master.itineraries) {it : Itinerary K}
    (h : it.Measured p) (hseated : it.Seated p) (hload : ∀ i, it.servedAt i ≤ residual.getD i 0) :
    0 ≤ it.reducedCost outcome.duals := by
  -- Within the range the last scan has weighed the flight, or one that betters it. Beyond the range
  -- only the flights to one platform are left, and for these the program has a column.
  by_cases hrange : it.tourLength ≤ p.range
  · rw [← h.reducedCost_sortie hseated hrange]
    rcases sortie_of_stocked hsymm htriangle hslack htolerance.ge hcolumns hmemory hstocked hrun
      hending (h.sortie hseated hrange) hload with hdear | ⟨found, hfound, hcheaper⟩
    · rwa [htolerance, neg_zero] at hdear
    · exact (hpriced.dear found hfound).trans hcheaper
  · obtain ⟨i, hi⟩ := h.alone (not_le.mp hrange)
    have hlocated := h.located i (by simp [hi])
    refine h.dear_of_single hseated hi (hload i) (hpriced.dear _ ?_)
    apply List.mem_of_mem_take (i := p.platformCount)
    rw [hbased.basis]
    exact MasterProgram.mem_basis.mpr ⟨i, hlocated.1, hlocated.2, rfl⟩

end OffshoreFlights
