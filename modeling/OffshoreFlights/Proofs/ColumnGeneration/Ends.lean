import OffshoreFlights.Proofs.Rounding.Passed

/-! The ways in which column generation ends. Whatever the LP backend answers, the last iteration
begins from a state that is due, within the limit; and the run ends there with an error of the
backend, because a scan found nothing to add, or at the limit after one more solution. -/

namespace OffshoreFlights.ColumnGeneration

variable {L α : Type} [Scalar α] [Lp.Backend L α] {p : Problem α} {settings : Settings α}
  {residual : List ℕ} {state : SolverState L α} {g : ColumnGeneration L α}

/-- A scan that adds nothing leaves the solution before it to be read. -/
theorem outcome_of_idle {master : MasterProgram L α}
    (hidle : (g.scanAfter p settings residual master).added = 0) (duals : List α) :
    (g.iterated p settings residual master).outcome settings .converged duals =
      ⟨.converged, g.iterations + 1, master.objective, master.flightsAbove settings.tolerance,
        duals, (g.iterated p settings residual master).columnsAdded⟩ := by
  have hmaster : (g.iterated p settings residual master).state.master = master :=
    Pricing.Terms.master_of_idle_scan hidle
  rw [outcome, hmaster]
  rfl

/-- How a run ends when the iteration after `g` is its last. -/
inductive Ends (p : Problem α) (settings : Settings α) (residual : List ℕ)
    (g : ColumnGeneration L α) : Except (Error α) (Outcome α) × SolverState L α → Prop
  | failed {e : Error α} {master : MasterProgram L α}
    (hsolve : g.state.master.solve = (.error e, master)) :
    Ends p settings residual g (.error e, { g.state with master })
  | converged {master : MasterProgram L α} (hsolve : g.state.master.solve = (.ok (), master))
    (hidle : (g.scanAfter p settings residual master).added = 0) :
    Ends p settings residual g
      (.ok ((g.iterated p settings residual master).outcome settings .converged master.duals),
        (g.scanAfter p settings residual master).state)
  | failedAtLimit {e : Error α} {master last : MasterProgram L α}
    (hsolve : g.state.master.solve = (.ok (), master))
    (hadded : (g.scanAfter p settings residual master).added ≠ 0)
    (hlast : (g.iterated p settings residual master).state.master.solve = (.error e, last)) :
    Ends p settings residual g
      (.error e, { (g.iterated p settings residual master).state with master := last })
  | limitReached {master last : MasterProgram L α}
    (hsolve : g.state.master.solve = (.ok (), master))
    (hadded : (g.scanAfter p settings residual master).added ≠ 0)
    (hlimit : g.iterations + 1 = max 1 settings.iterationLimit)
    (hlast : (g.iterated p settings residual master).state.master.solve = (.ok (), last)) :
    Ends p settings residual g
      (.ok ⟨.limitReached, g.iterations + 1, last.objective,
        last.flightsAbove settings.tolerance, last.duals,
        (g.iterated p settings residual master).columnsAdded⟩,
        { (g.iterated p settings residual master).state with master := last })

theorem Ends.of_endAtLimit {master : MasterProgram L α}
    (hsolve : g.state.master.solve = (.ok (), master))
    (hadded : (g.scanAfter p settings residual master).added ≠ 0)
    (hlimit : g.iterations + 1 = max 1 settings.iterationLimit) :
    Ends p settings residual g ((g.iterated p settings residual master).endAtLimit settings) := by
  -- one more solution, with no scan behind it
  match hlast : (g.iterated p settings residual master).state.master.solve with
  | (.error e, last) =>
    unfold endAtLimit
    rw [hlast]
    exact .failedAtLimit hsolve hadded hlast
  | (.ok (), last) =>
    rw [endAtLimit_of_solve hlast]
    exact .limitReached hsolve hadded hlimit hlast

/-- Iterations that are due end within the limit. -/
theorem Due.iterate_ends (h : Due p settings residual state g) {left : ℕ}
    (hleft : g.iterations + left + 1 = max 1 settings.iterationLimit) :
    ∃ last, Due p settings residual state last ∧
      last.iterations < max 1 settings.iterationLimit ∧
        Ends p settings residual last (iterate p settings residual left g) := by
  induction left using Nat.strong_induction_on generalizing g with
  | _ left ih =>
    match hsolve : g.state.master.solve with
    | (.error e, master) =>
      rw [iterate_of_error hsolve]
      exact ⟨g, h, by omega, .failed hsolve⟩
    | (.ok (), master) =>
      by_cases hadded : (g.scanAfter p settings residual master).added = 0
      · rw [iterate_of_idle hsolve hadded]
        exact ⟨g, h, by omega, .converged hsolve hadded⟩
      · cases left with
        | zero =>
          rw [iterate_zero hsolve hadded]
          exact ⟨g, h, by omega, .of_endAtLimit hsolve hadded hleft⟩
        | succ left =>
          rw [iterate_succ hsolve hadded]
          refine ih left (Nat.lt_succ_self left) (h.next hsolve hadded) ?_
          show g.iterations + 1 + left + 1 = _
          omega

/-- A run that is not refused has a last iteration. -/
theorem generate_ends (p : Problem α) (settings : Settings α) (residual : List ℕ)
    (state : SolverState L α) :
    (residual.length ≤ p.platformCount ∧
      generate p settings residual state = (.error (.fault .outOfRange), state)) ∨
    ∃ g, Due p settings residual state g ∧ g.iterations < max 1 settings.iterationLimit ∧
      Ends p settings residual g (generate p settings residual state) := by
  by_cases hlength : p.platformCount < residual.length
  · rw [generate_of_lt_length hlength]
    refine .inr (Due.iterate_ends (.start (MasterProgram.resetChecked_of_lt hlength)) ?_)
    show 0 + (settings.iterationLimit - 1) + 1 = _
    omega
  · exact .inl ⟨by omega, generate_of_length_le (by omega) state⟩

end OffshoreFlights.ColumnGeneration
