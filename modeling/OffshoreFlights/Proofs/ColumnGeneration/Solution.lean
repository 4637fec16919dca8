import OffshoreFlights.Proofs.ColumnGeneration.Tally

/-! What column generation reports is one solution of the master program. The scan between a
solution and the reads may change the master program, but where it does, the master program is
solved again before anything is read; and a solution that fails is the last thing that happens. -/

namespace OffshoreFlights.ColumnGeneration

variable {L α : Type} [Scalar α] [Lp.Backend L α] {p : Problem α} {settings : Settings α}
  {residual : List ℕ} {state : SolverState (Lp.Audited L α) α}
  {g : ColumnGeneration (Lp.Audited L α) α} {master : MasterProgram (Lp.Audited L α) α}
  {solves : List (Lp.Solve α)} {s : Lp.Solve α}

/-- The master program stands as the last of some solutions left it. Those before it succeeded. -/
structure StandsAt (solves : List (Lp.Solve α)) (s : Lp.Solve α)
    (m : MasterProgram (Lp.Audited L α) α) : Prop where
  latest : ∃ earlier, solves = s :: earlier ∧ ∀ s' ∈ earlier, s'.answer = .ok ()
  solved : m.SolvedAs s

/-- The objective, the dual values and the frequencies are those of one solution. The flights are
the columns whose value is above the tolerance, in their order, each with its own itinerary. -/
structure Outcome.Reports (settings : Settings α) (m : MasterProgram (Lp.Audited L α) α)
    (s : Lp.Solve α) (outcome : Outcome α) : Prop where
  objective : outcome.objective = s.objective
  duals : outcome.duals = 0 :: (List.range m.basisSize).map s.dual
  flights : outcome.flights = m.itineraries.zipIdx.filterMap fun (itinerary, j) =>
    if settings.tolerance < s.primal j then some ⟨itinerary, s.primal j⟩ else none

omit [Scalar α] in
theorem StandsAt.eq_of_error (h : StandsAt solves s master) {s' : Lp.Solve α} (hs' : s' ∈ solves)
    {e : Error α} (he : s'.answer = .error e) : s' = s := by
  obtain ⟨earlier, rfl, hok⟩ := h.latest
  refine (List.mem_cons.mp hs').resolve_right fun hearlier => ?_
  rw [hok s' hearlier] at he
  cases he

/-- The solution that follows the iterations so far is the last of this run. -/
theorem Tally.standsAt (h : Tally p settings residual state g) {answer : Except (Error α) Unit}
    (hsolve : g.state.master.solve = (answer, master)) :
    ∃ solves s, master.solves = solves ++ state.master.solves ∧ s.answer = answer ∧
      StandsAt solves s master := by
  obtain ⟨answers, hanswers, -, hok⟩ := h.solves
  obtain ⟨s, hs, hsolves, hsolved⟩ := MasterProgram.solvedAs_of_solve hsolve
  exact ⟨s :: answers, s, by rw [hsolves, hanswers]; rfl, hs, ⟨answers, rfl, hok⟩, hsolved⟩

theorem reports_of_solvedAs (h : master.SolvedAs s) (settings : Settings α) (ending : Ending)
    (iterations columnsAdded : ℕ) :
    Outcome.Reports settings master s ⟨ending, iterations, master.objective,
      master.flightsAbove settings.tolerance, master.duals, columnsAdded⟩ where
  objective := h.objective.symm
  duals := by
    rw [h.dual]
    rfl
  flights := by
    rw [h.primal]
    rfl

/-- How a run stands to its own solutions, the last one first. -/
structure Solves (p : Problem α) (settings : Settings α) (residual : List ℕ)
    (state : SolverState (Lp.Audited L α) α) (solves : List (Lp.Solve α))
    (run : Except (Error α) (Outcome α) × SolverState (Lp.Audited L α) α) : Prop where
  answers : run.2.master.solves = solves ++ state.master.solves
  /-- An outcome is what the last solution says. It was posed over all itineraries that the run
  added, and nothing was done to the master program since. -/
  reports : ∀ outcome, run.1 = .ok outcome → ∃ s added, StandsAt solves s run.2.master ∧
    s.answer = .ok () ∧ outcome.Reports settings run.2.master s ∧
    added.length = outcome.columnsAdded ∧
    run.2.master.itineraries = (state.master.reset p residual).itineraries ++ added ∧
    s.program.columns =
      (state.master.reset p residual).program.columns ++ added.map Itinerary.column ∧
    (state.master.InStep → s.program.columns = run.2.master.itineraries.map Itinerary.column)
  /-- A solution that fails ends the run, and nothing is done to the master program since. -/
  fails : ∀ s ∈ solves, ∀ e, s.answer = .error e →
    run.1 = .error e ∧ StandsAt solves s run.2.master

theorem Solves.of_error {run : Except (Error α) (Outcome α) × SolverState (Lp.Audited L α) α}
    {e : Error α} (hrun : run.1 = .error e)
    (hanswers : run.2.master.solves = solves ++ state.master.solves) (hs : s.answer = .error e)
    (hstands : StandsAt solves s run.2.master) :
    Solves p settings residual state solves run where
  answers := hanswers
  reports outcome houtcome := by
    rw [hrun] at houtcome
    cases houtcome
  fails s' hs' e' he' := by
    obtain rfl := hstands.eq_of_error hs' he'
    obtain rfl := Except.error.inj (hs.symm.trans he')
    exact ⟨hrun, hstands⟩

theorem Solves.of_ok {final : SolverState (Lp.Audited L α) α} {outcome : Outcome α}
    {added : List (Itinerary α)}
    (hanswers : final.master.solves = solves ++ state.master.solves) (hs : s.answer = .ok ())
    (hstands : StandsAt solves s final.master)
    (hreports : outcome.Reports settings final.master s)
    (hadded : added.length = outcome.columnsAdded)
    (hgrown : MasterProgram.Grown p residual (state.master.reset p residual) added final.master) :
    Solves p settings residual state solves (.ok outcome, final) where
  answers := hanswers
  reports outcome' houtcome := by
    obtain rfl := Except.ok.inj houtcome
    have hcolumns : s.program.columns =
        (state.master.reset p residual).program.columns ++ added.map Itinerary.column := by
      rw [hstands.solved.program, hgrown.columns]
    refine ⟨s, added, hstands, hs, hreports, hadded, hgrown.itineraries, hcolumns, fun hstep => ?_⟩
    rw [hcolumns, hgrown.itineraries, List.map_append]
    exact congrArg (· ++ _) (hstep.reset p residual)
  fails s' hs' e he := by
    obtain rfl := hstands.eq_of_error hs' he
    cases hs.symm.trans he

/-- In whatever way a run ends, it reports its last solution. -/
theorem Due.solves_of_ends (h : Due p settings residual state g)
    {run : Except (Error α) (Outcome α) × SolverState (Lp.Audited L α) α}
    (hends : Ends p settings residual g run) :
    ∃ solves, Solves p settings residual state solves run := by
  cases hends with
  | failed hsolve =>
    obtain ⟨solves, s, hanswers, hs, hstands⟩ := h.tally.standsAt hsolve
    exact ⟨solves, .of_error rfl hanswers hs hstands⟩
  | @converged master hsolve hidle =>
    -- the scan came after the solution, but has left the master program alone
    obtain ⟨solves, s, hanswers, hs, hstands⟩ := h.tally.standsAt hsolve
    obtain ⟨added, hadded, hgrown⟩ := h.tally.scanned h.order hsolve
    have hmaster : (g.scanAfter p settings residual master).state.master = master :=
      Pricing.Terms.master_of_idle_scan hidle
    refine ⟨solves, .of_ok ?_ hs ?_ ?_ hadded hgrown⟩
    · rw [hmaster]
      exact hanswers
    · rw [hmaster]
      exact hstands
    · rw [outcome_of_idle hidle, hmaster]
      exact reports_of_solvedAs hstands.solved _ _ _ _
  | failedAtLimit hsolve hadded hlast =>
    obtain ⟨solves, s, hanswers, hs, hstands⟩ :=
      (h.tally.iterated h.order hsolve hadded).standsAt hlast
    exact ⟨solves, .of_error rfl hanswers hs hstands⟩
  | limitReached hsolve hsome _ hlast =>
    have htally := h.tally.iterated h.order hsolve hsome
    obtain ⟨solves, s, hanswers, hs, hstands⟩ := htally.standsAt hlast
    obtain ⟨added, hadded, hgrown⟩ := htally.grown
    have hsolved := hgrown.solve
    rw [hlast] at hsolved
    exact ⟨solves, .of_ok hanswers hs hstands (reports_of_solvedAs hstands.solved _ _ _ _) hadded
      hsolved⟩

/-- A run reports what the last of its solutions says, or fails with it. -/
theorem generate_solves (p : Problem α) (settings : Settings α) (residual : List ℕ)
    (state : SolverState (Lp.Audited L α) α) :
    ∃ solves, Solves p settings residual state solves (generate p settings residual state) := by
  obtain ⟨-, hrefused⟩ | ⟨g, hdue, -, hends⟩ := generate_ends p settings residual state
  · rw [hrefused]
    refine ⟨[], rfl, ?_, by simp⟩
    rintro outcome ⟨⟩
  · exact hdue.solves_of_ends hends

end OffshoreFlights.ColumnGeneration

namespace OffshoreFlights.Detour

open Problem (detour)

theorem generate_solves_detour : ∃ solves outcome final,
    ColumnGeneration.generate detour (settings 0) [0, 1, 1] ⟨.start lp, .empty⟩ =
        (.ok outcome, final) ∧
      ColumnGeneration.Solves detour (settings 0) [0, 1, 1] ⟨.start lp, .empty⟩ solves
        (.ok outcome, final) ∧
      solves.length = 2 ∧ outcome.objective = 6 ∧ outcome.columnsAdded = 1 := by
  obtain ⟨memory, hrun⟩ := generate_limited
  obtain ⟨solves, hsolves⟩ :=
    ColumnGeneration.generate_solves detour (settings 0) [0, 1, 1] ⟨.start lp, .empty⟩
  rw [hrun] at hsolves
  have hlength : solves.length = 2 := by
    have hanswers := congrArg List.length hsolves.answers
    rw [List.length_append] at hanswers
    exact hanswers.symm
  exact ⟨solves, _, _, hrun, hsolves, hlength, rfl, rfl⟩

end OffshoreFlights.Detour
