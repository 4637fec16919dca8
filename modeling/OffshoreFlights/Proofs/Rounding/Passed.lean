import OffshoreFlights.Planner
import OffshoreFlights.Proofs.Rounding.Rounds

/-! The states of master program and memory through which a run passes: after each reset, after each
solution of the master program, after each set that a scan looks at, and between rounds. A run ends
in one of them, be it with a plan or with an error. -/

namespace OffshoreFlights

/-- A scan from a state, followed for some steps. -/
def Pricing.Terms.scanned {L α : Type} [Scalar α] [Lp.Backend L α] (t : Pricing.Terms α)
    (steps : ℕ) (state : SolverState L α) : Pricing.Scan L α :=
  t.scanFrom steps ⟨.start t.candidates.length, true, 0, state⟩

namespace ColumnGeneration

variable {L α : Type} [Scalar α] [Lp.Backend L α] {p : Problem α} {settings : Settings α}
  {residual : List ℕ} {state st : SolverState L α} {g : ColumnGeneration L α}

/-- Column generation from a state before an iteration. -/
inductive Due (p : Problem α) (settings : Settings α) (residual : List ℕ)
    (state : SolverState L α) : ColumnGeneration L α → Prop
  | start {master : MasterProgram L α}
    (hreset : state.master.resetChecked p residual = .ok master) :
    Due p settings residual state (start p residual { state with master })
  | next {g : ColumnGeneration L α} {master : MasterProgram L α}
    (h : Due p settings residual state g) (hsolve : g.state.master.solve = (.ok (), master))
    (hadded : (g.scanAfter p settings residual master).added ≠ 0) :
    Due p settings residual state (g.iterated p settings residual master)

/-- The states through which column generation passes. -/
inductive Passed (p : Problem α) (settings : Settings α) (residual : List ℕ)
    (state : SolverState L α) : SolverState L α → Prop
  | due {g : ColumnGeneration L α} (h : Due p settings residual state g) :
    Passed p settings residual state g.state
  | solved {g : ColumnGeneration L α} (h : Due p settings residual state g) :
    Passed p settings residual state { g.state with master := g.state.master.solve.2 }
  | scanning {g : ColumnGeneration L α} {master : MasterProgram L α}
    (h : Due p settings residual state g) (hsolve : g.state.master.solve = (.ok (), master))
    (steps : ℕ) :
    Passed p settings residual state
      ((g.terms p settings residual master).scanned steps { g.state with master }).state

theorem Due.order (h : Due p settings residual state g) :
    g.order.Perm (candidates p residual) := by
  induction h with
  | start => exact List.Perm.refl _
  | next _ _ _ ih => exact order_iterated ih _

section Preserved

variable {P : SolverState L α → Prop} (hP : Preserved p settings residual P)
  (hreset : ∀ master, state.master.resetChecked p residual = .ok master → P { state with master })

include hP hreset

theorem Due.preserves (h : Due p settings residual state g) : P g.state := by
  induction h with
  | start h => exact hreset _ h
  | next h hsolve _ ih => exact hP.scanned h.order hsolve ih

theorem Passed.preserves (h : Passed p settings residual state st) : P st := by
  cases h with
  | due h => exact h.preserves hP hreset
  | solved h => exact hP.solve _ (h.preserves hP hreset)
  | scanning h hsolve steps =>
    have hsolved := hP.solved hsolve (h.preserves hP hreset)
    refine Pricing.Terms.scanFrom_preserves (P := fun _ st => P st) ?_ steps
      (Pricing.Terms.underway_start _) hsolved
    intro stops scan scan' hvisit hscan
    exact hP.visit _ stops scan scan' rfl rfl rfl (wellFormed_terms h.order _) hvisit hscan

end Preserved

theorem Due.passed_iterate (left : ℕ) (h : Due p settings residual state g) :
    Passed p settings residual state (iterate p settings residual left g).2 := by
  revert h
  refine iterate_induction (motive := fun g r => Due p settings residual state g →
    Passed p settings residual state r.2) ?_ ?_ ?_ ?_ left g
  · intro g e master hsolve h
    have hpassed := Passed.solved h
    rwa [hsolve] at hpassed
  · intro g master hsolve _ h
    exact .scanning h hsolve _
  · intro g master hsolve hadded h
    exact .solved (h.next hsolve hadded)
  · intro g master r hsolve hadded ih h
    exact ih (h.next hsolve hadded)

/-- Column generation ends in a state that it passes through, if it starts at all. -/
theorem passed_generate (p : Problem α) (settings : Settings α) (residual : List ℕ)
    (state : SolverState L α) :
    (generate p settings residual state).2 = state ∨
      Passed p settings residual state (generate p settings residual state).2 := by
  by_cases hlength : p.platformCount < residual.length
  · rw [generate_of_lt_length hlength]
    exact .inr (Due.passed_iterate _ (.start (MasterProgram.resetChecked_of_lt hlength)))
  · rw [generate_of_length_le (by omega)]
    exact .inl rfl

end ColumnGeneration

namespace Rounding

variable {L S α : Type} [Scalar α] [Lp.Backend L α] [FlightChooser S α] {p : Problem α}
  {settings : Settings α} {first r : Rounding L S α}

/-- The states through which a rounding passes. -/
inductive Passed (p : Problem α) (settings : Settings α) (first : Rounding L S α) :
    SolverState L α → Prop
  | between {r : Rounding L S α} (h : Reached p settings first r) :
    Passed p settings first r.solver
  | within {r : Rounding L S α} {st : SolverState L α} (h : Reached p settings first r)
    (hst : ColumnGeneration.Passed p settings r.residual r.solver st) :
    Passed p settings first st

theorem Reached.passed_generate (h : Reached p settings first r) :
    Passed p settings first (ColumnGeneration.generate p settings r.residual r.solver).2 := by
  rcases ColumnGeneration.passed_generate p settings r.residual r.solver with heq | hpassed
  · rw [heq]
    exact .between h
  · exact .within h hpassed

theorem Reached.passed_finish (h : Reached p settings first r) :
    Passed p settings first (finish p settings r).2.solver := by
  fun_induction finish p settings r with
  | case1 r hdone => exact .between h
  | case2 r hleft e r' hround =>
    have hpassed := h.passed_generate
    have hspec := round_spec p settings r
    rw [hround] at hspec
    cases hspec with
    | unsolved hgenerate | stalled hgenerate | refused hgenerate | noSuchFlight hgenerate =>
      rw [hgenerate] at hpassed
      exact hpassed
  | case3 r hleft r' hround ih => exact ih (h.next hleft hround)

/-- A rounding ends in a state that it passes through. -/
theorem passed_wholePlan (p : Problem α) (settings : Settings α) (solver : SolverState L α)
    (chooser : S) :
    Passed p settings (start p solver chooser) (wholePlan p settings solver chooser).2.1 :=
  Reached.refl.passed_finish

end Rounding

/-- The columns of a relaxed plan are those of a state through which the first round of a rounding
passes. -/
theorem Planner.passed_relaxedPlan {L S α : Type} [Scalar α] [Lp.Backend L α] [FlightChooser S α]
    (planner : Planner α) (lp : L) (chooser : S) {relaxed : RelaxedPlan α}
    (h : (planner.relaxedPlan lp).1 = .ok relaxed) :
    ∃ st, Rounding.Passed planner.problem planner.settings
        (Rounding.start planner.problem (planner.solver lp) chooser) st ∧
      relaxed.columns = st.master.itineraries := by
  refine ⟨_, Rounding.Reached.passed_generate .refl, ?_⟩
  unfold relaxedPlan at h
  dsimp only at h
  cases hresult : (ColumnGeneration.generate planner.problem planner.settings
      planner.problem.demands (planner.solver lp)).1 with
  | error e =>
    rw [hresult] at h
    cases h
  | ok outcome =>
    rw [hresult] at h
    obtain rfl := Except.ok.inj h
    rfl

end OffshoreFlights
