import OffshoreFlights.Lp.Scripted
import OffshoreFlights.Proofs.FlightChooser
import OffshoreFlights.Proofs.Lp.Transport
import OffshoreFlights.Proofs.Rounding.Ready

/-! Rounding in exact arithmetic always makes a plan, provided that the LP backend finds solutions
of the programs that have some. Every program that it is asked to solve is solvable, and its
solution flies some itinerary often enough to be fixed, so no round ends with an error. -/

namespace OffshoreFlights

section Generation

variable {K L : Type} [Field K] [LinearOrder K] [FloorRing K] [Lp.Backend L K] {p : Problem K}
  {settings : Settings K} {residual : List ℕ}

namespace MasterProgram

variable {m : MasterProgram (Lp.Audited L K) K}

/-- The program stands as it was solved last, with a solution. -/
structure Solved (p : Problem K) (residual : List ℕ) (m : MasterProgram (Lp.Audited L K) K) : Prop
    extends Ready p residual m where
  posed : ∃ s ∈ m.solves, s.program = m.program
  primal : m.program.IsFeasible (Lp.Backend.primal m.lp)

variable [IsStrictOrderedRing K]

theorem Ready.goesOn (h : m.Ready p residual) : Lp.GoesOn m.solves m.solve.2.solves :=
  .cons h.solvable m.solves

theorem Ready.solved (h : m.Ready p residual) (hreliable : ∀ s ∈ m.solve.2.solves, s.Reliable) :
    m.solve.1 = .ok () ∧ m.solve.2.Solved p residual := by
  obtain ⟨hanswer, hprimal⟩ := hreliable _ List.mem_cons_self h.solvable
  exact ⟨hanswer, ⟨⟨⟨⟨h.size, h.useful⟩, h.basis⟩, h.inStep.solve, h.rhs⟩,
    ⟨_, List.mem_cons_self, rfl⟩, hprimal⟩⟩

end MasterProgram

namespace ColumnGeneration

/-- A result of column generation that poses solvable programs only, and is an outcome if the
answers can be relied on. -/
structure Succeeds (p : Problem K) (residual : List ℕ) (before : List (Lp.Solve K))
    (result : Except (Error K) (Outcome K) × SolverState (Lp.Audited L K) K) : Prop where
  goesOn : Lp.GoesOn before result.2.master.solves
  succeeds : (∀ s ∈ result.2.master.solves, s.Reliable) →
    (∃ outcome, result.1 = .ok outcome) ∧ result.2.master.Solved p residual

variable [IsStrictOrderedRing K]

theorem iterate_succeeds (settings : Settings K) (hlength : residual.length = p.platformCount + 1)
    (left : ℕ) {g : ColumnGeneration (Lp.Audited L K) K}
    (horder : g.order.Perm (candidates p residual)) (hready : g.state.master.Ready p residual) :
    Succeeds p residual g.state.master.solves (iterate p settings residual left g) := by
  have hpreserved := preserved_ready (L := Lp.Audited L K) hlength settings
  revert horder hready
  refine iterate_induction (motive := fun g r => g.order.Perm (candidates p residual) →
    g.state.master.Ready p residual → Succeeds p residual g.state.master.solves r)
    ?_ ?_ ?_ ?_ left g
  · intro g e master hsolve _ hready
    have hgoesOn := hready.goesOn
    have hsolved := hready.solved
    rw [hsolve] at hgoesOn hsolved
    refine ⟨hgoesOn, fun hreliable => ?_⟩
    cases (hsolved hreliable).1
  · intro g master hsolve hidle _ hready
    have hgoesOn := hready.goesOn
    have hsolved := hready.solved
    rw [hsolve] at hgoesOn hsolved
    have hmaster : (g.scanAfter p settings residual master).state.master = master :=
      Pricing.Terms.master_of_idle_scan hidle
    refine ⟨by rwa [hmaster], fun hreliable => ⟨⟨_, rfl⟩, ?_⟩⟩
    rw [hmaster] at hreliable ⊢
    exact (hsolved hreliable).2
  · intro g master hsolve _ horder hready
    have hgoesOn := hready.goesOn
    rw [hsolve] at hgoesOn
    have hscanned := hpreserved.scanned horder hsolve hready
    have hsolves : (g.scanAfter p settings residual master).state.master.solves = master.solves :=
      Pricing.Terms.solves_scan _ _
    refine ⟨hgoesOn.trans (hsolves ▸ hscanned.goesOn), fun hreliable => ?_⟩
    obtain ⟨hanswer, hsolved⟩ := hscanned.solved hreliable
    exact ⟨endAtLimit_of_ok hanswer, hsolved⟩
  · intro g master r hsolve _ ih horder hready
    have hgoesOn := hready.goesOn
    rw [hsolve] at hgoesOn
    obtain ⟨hlater, hsucceeds⟩ :=
      ih (order_iterated horder master) (hpreserved.scanned horder hsolve hready)
    have hsolves : (g.scanAfter p settings residual master).state.master.solves = master.solves :=
      Pricing.Terms.solves_scan _ _
    exact ⟨hgoesOn.trans (hsolves ▸ hlater), hsucceeds⟩

theorem generate_succeeds (settings : Settings K)
    (hlength : residual.length = p.platformCount + 1) {state : SolverState (Lp.Audited L K) K}
    (h : state.master.Resettable p residual) :
    Succeeds p residual state.master.solves (generate p settings residual state) := by
  have hrun := iterate_succeeds settings hlength (settings.iterationLimit - 1)
    (g := start p residual { state with master := state.master.reset p residual })
    (List.Perm.refl _) h.reset
  rw [generate_of_lt_length (by omega), ← MasterProgram.solves_reset p residual state.master]
  exact hrun

end ColumnGeneration

end Generation

namespace Rounding

/-! ### Rounds over an audited backend -/

section Audited

variable {K L S : Type} [Field K] [LinearOrder K] [FloorRing K] [IsStrictOrderedRing K]
  [Lp.Backend L K] [FlightChooser S K] {p : Problem K} {settings : Settings K}

/-- What holds between rounds over a backend that keeps its program. -/
structure InOrder (p : Problem K) (r : Rounding (Lp.Audited L K) S K) : Prop
    extends Consistent p r where
  resettable : r.solver.master.Resettable p r.residual

omit [IsStrictOrderedRing K] in
theorem InOrder.round {r r' : Rounding (Lp.Audited L K) S K} (hremaining : r.remaining ≠ 0)
    (hr : r.InOrder p) (hround : Round p settings r (none, r')) : r'.InOrder p := by
  refine ⟨hr.toConsistent.round hremaining hround, ?_⟩
  cases hround with
  | fixed hgenerate _ _ _ =>
    exact (ColumnGeneration.generate_ready hr.length hr.resettable hgenerate).removeUnfit _

theorem InOrder.goesOn {r r' : Rounding (Lp.Audited L K) S K} (hr : r.InOrder p)
    {error? : Option (Error K)} (hround : Round p settings r (error?, r')) :
    Lp.GoesOn r.solver.master.solves r'.solver.master.solves := by
  have hgoesOn := (ColumnGeneration.generate_succeeds settings hr.length
    hr.resettable).goesOn
  cases hround with
  | unsolved h | stalled h | refused h | noSuchFlight h =>
    rw [h] at hgoesOn
    exact hgoesOn
  | fixed h =>
    rw [h] at hgoesOn
    refine hgoesOn.trans ?_
    show Lp.GoesOn _ (MasterProgram.removeUnfit _ _).2.solves
    rw [MasterProgram.solves_removeUnfit]
    exact .refl _

omit [FlightChooser S K] in
theorem InOrder.choice_ne_nil {r : Rounding (Lp.Audited L K) S K} (hremaining : r.remaining ≠ 0)
    (hr : r.InOrder p) {outcome : ColumnGeneration.Outcome K}
    {solver : SolverState (Lp.Audited L K) K}
    (hgenerate : ColumnGeneration.generate p settings r.residual r.solver = (.ok outcome, solver))
    (hsolved : solver.master.Solved p r.residual)
    (hsmall : ∀ s ∈ solver.master.solves,
      settings.tolerance * p.capacity * s.program.columns.length < 1) :
    r.choice outcome ≠ [] := by
  obtain ⟨row, hrow, hwaiting⟩ := hr.exists_waiting hremaining
  obtain ⟨s, hs, hprogram⟩ := hsolved.posed
  obtain ⟨j, it, hget, hserved, hflown⟩ :=
    hsolved.exists_flown hsolved.primal (hprogram ▸ hsmall s hs) hrow hwaiting
  have hflight : (⟨it, Lp.Backend.primal solver.master.lp j⟩ : FractionalFlight K) ∈
      outcome.flights := by
    rw [(ColumnGeneration.report_of_generate hgenerate).1]
    exact MasterProgram.mem_flightsAbove.mpr ⟨j, hget, rfl, hflown⟩
  have hcarries := (hsolved.carries (List.mem_of_getElem? hget)).2
  have hfits := hsolved.fitsWithin hget hserved hwaiting
  exact List.ne_nil_of_mem (List.mem_filter.mpr ⟨hflight, by simp [hcarries, hfits]⟩)

variable [FlightChooser.Decisive S K]

/-- Over answers that can be relied on, no round ends with an error. -/
theorem InOrder.not_round_some {r r' : Rounding (Lp.Audited L K) S K} (hremaining : r.remaining ≠ 0)
    (hr : r.InOrder p) (hreliable : ∀ s ∈ r'.solver.master.solves, s.Reliable)
    (hsmall : ∀ s ∈ r'.solver.master.solves,
      settings.tolerance * p.capacity * s.program.columns.length < 1) (e : Error K) :
    ¬Round p settings r (some e, r') := by
  intro hround
  have hsucceeds := (ColumnGeneration.generate_succeeds settings hr.length
    hr.resettable).succeeds
  cases hround with
  | unsolved hgenerate =>
    rw [hgenerate] at hsucceeds
    obtain ⟨⟨outcome, houtcome⟩, -⟩ := hsucceeds hreliable
    cases houtcome
  | stalled hgenerate hnone =>
    rw [hgenerate] at hsucceeds
    exact hr.choice_ne_nil hremaining hgenerate (hsucceeds hreliable).2 hsmall hnone
  | @refused outcome _ _ _ _ hsome hchoose =>
    obtain ⟨index, -, hok⟩ := FlightChooser.Decisive.choose_lt r.chooser hsome
    rw [hchoose] at hok
    cases hok
  | @noSuchFlight outcome _ index _ _ hsome hchoose hindex =>
    obtain ⟨index', hlt, hok⟩ := FlightChooser.Decisive.choose_lt r.chooser hsome
    rw [hchoose] at hok
    obtain rfl := Except.ok.inj hok
    rw [List.getElem?_eq_getElem hlt] at hindex
    cases hindex

theorem finish_succeeds (settings : Settings K) {r : Rounding (Lp.Audited L K) S K}
    (hr : r.InOrder p) :
    Lp.GoesOn r.solver.master.solves (finish p settings r).2.solver.master.solves ∧
      ((∀ s ∈ (finish p settings r).2.solver.master.solves, s.Reliable) →
        (∀ s ∈ (finish p settings r).2.solver.master.solves,
          settings.tolerance * p.capacity * s.program.columns.length < 1) →
        (finish p settings r).1 = none) := by
  revert hr
  refine finish_induction (motive := fun r result => r.InOrder p →
    Lp.GoesOn r.solver.master.solves result.2.solver.master.solves ∧
      ((∀ s ∈ result.2.solver.master.solves, s.Reliable) →
        (∀ s ∈ result.2.solver.master.solves,
          settings.tolerance * p.capacity * s.program.columns.length < 1) →
        result.1 = none)) ?_ ?_ ?_ r
  · exact fun r _ _ => ⟨.refl _, fun _ _ => rfl⟩
  · intro r e r' hremaining hround hr
    exact ⟨hr.goesOn hround, fun hreliable hsmall =>
      absurd hround (hr.not_round_some hremaining hreliable hsmall e)⟩
  · intro r r' result hremaining hround ih hr
    obtain ⟨hgoesOn, hnone⟩ := ih (hr.round hremaining hround)
    exact ⟨(hr.goesOn hround).trans hgoesOn, hnone⟩

end Audited

/-! ### The rounds of a run -/

section Reached

variable {L S α : Type} [Scalar α] [Lp.Backend L α] [FlightChooser S α] {p : Problem α}
  {settings : Settings α} {r : Rounding L S α}

/-- The round after a state fixes a flight: column generation has an outcome, there are flights to
choose from, and one of them is chosen. -/
def Fixes (p : Problem α) (settings : Settings α) (r : Rounding L S α) : Prop :=
  ∃ outcome, (ColumnGeneration.generate p settings r.residual r.solver).1 = .ok outcome ∧
    r.choice outcome ≠ [] ∧ ∃ index < (r.choice outcome).length,
      (FlightChooser.choose r.chooser (r.choice outcome)).1 = .ok index

/-- In a run without an error, every round fixes a flight. -/
theorem Reached.fixes {q final : Rounding L S α} (h : Reached p settings r q)
    (hfinish : finish p settings r = (none, final)) (hremaining : q.remaining ≠ 0) :
    q.Fixes p settings := by
  have hround := round_spec p settings q
  match hq : q.round p settings with
  | (some e, q') =>
    rw [h.finish_eq, finish_of_round_eq_some hremaining hq] at hfinish
    cases hfinish
  | (none, q') =>
    rw [hq] at hround
    cases hround with
    | fixed hgenerate hsome hchoose hindex =>
      obtain ⟨hlt, -⟩ := List.getElem?_eq_some_iff.mp hindex
      exact ⟨_, congrArg Prod.fst hgenerate, hsome, _, hlt, congrArg Prod.fst hchoose⟩

end Reached

/-! ### Whole runs -/

section Succeeds

variable {K L S : Type} [Field K] [LinearOrder K] [FloorRing K] [Lp.Backend L K]
  [FlightChooser S K] {p : Problem K} {settings : Settings K}

/-- The programs that a backend is asked to solve in a run, with its answers. -/
def answers (p : Problem K) (settings : Settings K) (lp : L) (memory : TourMemory K) (chooser : S) :
    List (Lp.Solve K) :=
  (wholePlan p settings ⟨.start (Lp.Audited.start lp), memory⟩ chooser).2.1.master.solves

theorem answers_of_finish {lp : L} {memory : TourMemory K} {chooser : S}
    {final : Rounding (Lp.Audited L K) S K}
    (hfinish : finish p settings (start p ⟨.start (Lp.Audited.start lp), memory⟩ chooser) =
      (none, final)) :
    answers p settings lp memory chooser = final.solver.master.solves :=
  congrArg (fun result => result.2.solver.master.solves) hfinish

omit [FlightChooser S K] in
theorem inOrder_start {lp : L} (hrows : Lp.Backend.rowCount lp = p.platformCount)
    (memory : TourMemory K) (chooser : S) :
    InOrder p (start p ⟨.start (Lp.Audited.start lp), memory⟩ chooser) := by
  refine ⟨consistent_start p _ memory chooser, MasterProgram.trim_start hrows, rfl, ?_⟩
  exact List.length_replicate.trans hrows

/-- Rounding makes a whole plan, provided that the backend finds solutions of the programs that have
some, and that the tolerance does not hide a whole passenger. The programs all have some, and every
round finds flights to choose from and fixes one of them. -/
theorem wholePlan_succeeds [IsStrictOrderedRing K] [FlightChooser.Decisive S K] {lp : L}
    (hrows : Lp.Backend.rowCount lp = p.platformCount) (memory : TourMemory K) (chooser : S)
    (hreliable : ∀ s ∈ answers p settings lp memory chooser, s.Reliable)
    (hsmall : ∀ s ∈ answers p settings lp memory chooser,
      settings.tolerance * p.capacity * s.program.columns.length < 1) :
    (∃ whole, (wholePlan p settings ⟨.start lp, memory⟩ chooser).1 = .ok whole) ∧
      (∀ s ∈ answers p settings lp memory chooser, s.program.Solvable) ∧
      ∀ r, Reached p settings (start p ⟨.start lp, memory⟩ chooser) r → r.remaining ≠ 0 →
        r.Fixes p settings := by
  obtain ⟨hgoesOn, hnone⟩ :=
    finish_succeeds settings (inOrder_start hrows memory chooser)
  have hfinish : (finish p settings (start p ⟨.start lp, memory⟩ chooser)).1 = none := by
    have hmap := Lp.Audited.hom_backend.map_finish p settings
      (start p ⟨.start (Lp.Audited.start lp), memory⟩ chooser)
    exact (congrArg Prod.fst hmap).trans (hnone hreliable hsmall)
  refine ⟨⟨_, wholePlan_eq_ok.mpr ⟨_, Prod.ext hfinish rfl, rfl⟩⟩, fun s hs => ?_, fun r hr => ?_⟩
  · rcases hgoesOn.solvable s hs with hs | hsolvable
    · cases hs
    · exact hsolvable
  · exact hr.fixes (Prod.ext hfinish rfl)

end Succeeds

theorem answers_collinear {settings : Settings ℚ}
    (h : settings = Collinear.settings ∨ settings = Collinear.tolerant) :
    answers Problem.collinear settings Collinear.lp .empty ChooseFirst.mk =
      Collinear.lateMaster.solves := by
  obtain ⟨after, hfinish, -, hmaster⟩ := Collinear.finish_before h
  rw [answers_of_finish hfinish, hmaster, MasterProgram.solves_removeUnfit]

/-- Four programs are solved in two rounds, the largest of them with four columns. -/
theorem wholePlan_succeeds_collinear :
    (∃ whole, (wholePlan Problem.collinear Collinear.tolerant ⟨.start Collinear.lp, .empty⟩
        ChooseFirst.mk).1 = .ok whole) ∧
      (∀ s ∈ Collinear.lateMaster.solves, s.program.Solvable) ∧
      ∀ r, Reached Problem.collinear Collinear.tolerant
          (start Problem.collinear ⟨.start Collinear.lp, .empty⟩ ChooseFirst.mk) r →
        r.remaining ≠ 0 → r.Fixes Problem.collinear Collinear.tolerant := by
  have hsound : ∀ s ∈ Collinear.lateMaster.solves, s.answer = .ok () ∧
      s.program.IsFeasible s.primal ∧
      Collinear.tolerant.tolerance * Problem.collinear.capacity * s.program.columns.length < 1 := by
    decide +kernel
  rw [← answers_collinear (.inr rfl)] at hsound ⊢
  exact wholePlan_succeeds rfl .empty ChooseFirst.mk
    (fun s hs _ => ⟨(hsound s hs).1, (hsound s hs).2.1⟩) fun s hs => (hsound s hs).2.2

end Rounding

end OffshoreFlights
