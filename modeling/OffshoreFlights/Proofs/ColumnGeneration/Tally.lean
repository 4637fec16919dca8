import Mathlib.Data.List.Sections
import OffshoreFlights.Proofs.ColumnGeneration.Ends
import OffshoreFlights.Proofs.Lp.InStep
import OffshoreFlights.Proofs.RangeLimit

/-! Column generation cannot go in circles, whatever the LP backend answers. Each iteration but the
last adds an itinerary, and no two that are added share an allocation. An allocation takes somebody
on board, nowhere more than wait there, and no more than there are seats; so the iterations are no
more than there are such allocations, and one. -/

namespace OffshoreFlights

/-- The ways to take some of those who wait on board, with no more of them than there are seats. -/
def Itinerary.allocations (residual : List ℕ) (seats : ℕ) : Finset (List ℕ) :=
  (residual.map fun waiting => List.range (waiting + 1)).sections.toFinset.filter
    fun allocation => 0 < headcount allocation ∧ headcount allocation ≤ seats

theorem Itinerary.mem_allocations {residual allocation : List ℕ} {seats : ℕ} :
    allocation ∈ allocations residual seats ↔
      List.Forall₂ (· ≤ ·) allocation residual ∧
        0 < headcount allocation ∧ headcount allocation ≤ seats := by
  rw [allocations, Finset.mem_filter, List.mem_toFinset, List.mem_sections,
    List.forall₂_map_right_iff]
  simp only [List.mem_range, Nat.lt_succ_iff]

theorem Pricing.Terms.Offers.allocation_mem {α : Type} [Scalar α] {t : Pricing.Terms α}
    {stops : List ℕ} (h : t.Offers stops) (ht : t.WellFormed) (tourLength : α) :
    (t.itinerary stops tourLength).allocation ∈
      Itinerary.allocations t.residual t.problem.capacity := by
  have hlength : (t.itinerary stops tourLength).allocation.length = t.residual.length := by
    rw [itinerary, Itinerary.length_allocation_firstServed]
  refine Itinerary.mem_allocations.mpr ⟨?_, ?_, ?_⟩
  · refine List.forall₂_iff_get.mpr ⟨hlength, fun i hi hi' => ?_⟩
    have hshare : (t.itinerary stops tourLength).servedAt i ≤ t.residual.getD i 0 := by
      rw [h.servedAt ht]
      exact Itinerary.share_le_demand i
    rwa [Itinerary.servedAt, List.getD_eq_getElem _ _ hi, List.getD_eq_getElem _ _ hi'] at hshare
  · obtain ⟨i, hi⟩ := List.exists_mem_of_ne_nil _ h.nonempty
    have hserved : 0 < (t.itinerary stops tourLength).servedAt i := by
      rw [← Itinerary.mem_support, h.support ht, List.mem_toFinset]
      exact hi
    exact hserved.trans_le (getD_le_headcount _ i)
  · have hcount : (t.itinerary stops tourLength).passengerCount =
        min t.problem.capacity (Itinerary.waitingAt t.residual stops) :=
      Itinerary.passengerCount_firstServed (h.sublist.nodup ht.nodup)
        fun i hi => ht.lt_length (h.sublist.subset hi)
    exact hcount.trans_le (Nat.min_le_left _ _)

/-! ### How the master program grows -/

namespace MasterProgram

section Grown

variable {L α : Type} [Scalar α] [Lp.Backend L α] [Lp.KeepsProgram L]

/-- Behind what the master program held at the beginning stand itineraries that were added, with
their columns. They have allocations of their own. -/
structure Grown (p : Problem α) (residual : List ℕ) (begun : MasterProgram L α)
    (added : List (Itinerary α)) (m : MasterProgram L α) : Prop where
  itineraries : m.itineraries = begun.itineraries ++ added
  columns : m.program.columns = begun.program.columns ++ added.map Itinerary.column
  catalogued : m.Catalogued
  distinct : (added.map Itinerary.allocation).Nodup
  allocated : ∀ it ∈ added, it.allocation ∈ Itinerary.allocations residual p.capacity

variable {p : Problem α} {residual : List ℕ} {begun m : MasterProgram L α}
  {added : List (Itinerary α)}

theorem Grown.refl (h : begun.Catalogued) : Grown p residual begun [] begun :=
  ⟨by simp, by simp, h, List.nodup_nil, by simp⟩

theorem Grown.solve (h : Grown p residual begun added m) :
    Grown p residual begun added m.solve.2 :=
  ⟨h.itineraries, by rw [program_solve, h.columns], h.catalogued, h.distinct, h.allocated⟩

theorem Grown.add (h : Grown p residual begun added m) {it : Itinerary α}
    (hunknown : m.contains it = false)
    (hit : it.allocation ∈ Itinerary.allocations residual p.capacity) :
    Grown p residual begun (added ++ [it]) (m.add it).2 := by
  refine ⟨?_, ?_, h.catalogued.add it, ?_, fun it' hit' => ?_⟩
  · rw [add_of_not_contains hunknown, h.itineraries, List.append_assoc]
  · have hcolumns : (m.add it).2.program.columns = m.program.columns ++ [it.column] := by
      rw [add_of_not_contains hunknown, program, program, Lp.KeepsProgram.program_addColumn]
    rw [hcolumns, h.columns, List.map_append, List.append_assoc]
    rfl
  · refine nodup_allocations_concat h.distinct fun held hheld => ?_
    refine h.catalogued.allocation_ne hunknown held ?_
    rw [h.itineraries]
    exact List.mem_append_right _ hheld
  · rcases List.mem_append.mp hit' with hit' | hit'
    · exact h.allocated it' hit'
    · rwa [List.mem_singleton.mp hit']

/-- No more itineraries are added than there are allocations for them. -/
theorem Grown.length_le (h : Grown p residual begun added m) :
    added.length ≤ (Itinerary.allocations residual p.capacity).card := by
  rw [← List.length_map (f := Itinerary.allocation), ← List.toFinset_card_of_nodup h.distinct]
  refine Finset.card_le_card fun allocation hallocation => ?_
  obtain ⟨it, hit, rfl⟩ := List.mem_map.mp (List.mem_toFinset.mp hallocation)
  exact h.allocated it hit

end Grown

end MasterProgram

namespace Pricing.Terms

variable {L α : Type} [Scalar α] [Lp.Backend L α] {t : Terms α}

/-- A scan adds as many itineraries as it counts. -/
theorem grown_scan [Lp.KeepsProgram L] (ht : t.WellFormed) {begun : MasterProgram L α}
    {added : List (Itinerary α)} (state : SolverState L α)
    (h : MasterProgram.Grown t.problem t.residual begun added state.master) :
    ∃ more, more.length = (t.scan state).added ∧
      MasterProgram.Grown t.problem t.residual begun (added ++ more)
        (t.scan state).state.master := by
  refine scan_preserves (P := fun n st => ∃ more, more.length = n ∧
    MasterProgram.Grown t.problem t.residual begun (added ++ more) st.master) ?_
    ⟨[], rfl, by rwa [List.append_nil]⟩
  rintro stops scan scan' hvisit ⟨more, hmore, hgrown⟩
  cases hvisit.look with
  | beyondRange _ _ hadded hmaster | tooDear _ _ _ hadded hmaster | held _ _ _ hadded hmaster =>
    exact ⟨more, by omega, hmaster ▸ hgrown⟩
  | new _ _ _ hunknown hadded hmaster =>
    have hgrown := hgrown.add hunknown (hvisit.offered.allocation_mem ht _)
    rw [← hmaster, List.append_assoc] at hgrown
    exact ⟨_, by rw [List.length_append, hmore, hadded]; rfl, hgrown⟩

theorem added_scanFrom_le (steps : ℕ) {scan : Scan L α} (hscan : t.Underway scan)
    (h : scan.added ≤ t.settings.columnsPerIteration) :
    (t.scanFrom steps scan).added ≤ t.settings.columnsPerIteration := by
  induction steps generalizing scan with
  | zero => exact h
  | succ steps ih =>
    rw [scanFrom_succ]
    split
    next hmore =>
      split
      next => exact h
      next hnext =>
        obtain ⟨hvisit, hscan'⟩ := hscan.visit hnext
        refine ih hscan' ?_
        cases hvisit.look with
        | beyondRange _ _ hadded | tooDear _ _ _ hadded | held _ _ _ hadded => omega
        | new _ _ _ _ hadded => omega
    next => exact h

theorem added_scan_le (t : Terms α) (state : SolverState L α) :
    (t.scan state).added ≤ t.settings.columnsPerIteration :=
  added_scanFrom_le _ (underway_start state) (Nat.zero_le _)

end Pricing.Terms

/-! ### Runs -/

namespace ColumnGeneration

variable {L α : Type} [Scalar α] [Lp.Backend L α] {p : Problem α} {settings : Settings α}
  {residual : List ℕ} {state : SolverState (Lp.Audited L α) α}
  {g : ColumnGeneration (Lp.Audited L α) α}

/-- What the iterations so far add up to. Each solved the master program with success and added
some itineraries, no more than it may. -/
structure Tally (p : Problem α) (settings : Settings α) (residual : List ℕ)
    (state : SolverState (Lp.Audited L α) α) (g : ColumnGeneration (Lp.Audited L α) α) : Prop where
  solves : ∃ answers, g.state.master.solves = answers ++ state.master.solves ∧
    answers.length = g.iterations ∧ ∀ s ∈ answers, s.answer = .ok ()
  grown : ∃ added, added.length = g.columnsAdded ∧
    MasterProgram.Grown p residual (state.master.reset p residual) added g.state.master
  iterations_le : g.iterations ≤ g.columnsAdded
  added_le : g.columnsAdded ≤ g.iterations * settings.columnsPerIteration

theorem Tally.start (p : Problem α) (settings : Settings α) (residual : List ℕ)
    (state : SolverState (Lp.Audited L α) α) :
    Tally p settings residual state
      (start p residual { state with master := state.master.reset p residual }) where
  solves := ⟨[], MasterProgram.solves_reset p residual state.master, rfl, by simp⟩
  grown := ⟨[], rfl, .refl (MasterProgram.catalogued_reset _ _ _)⟩
  iterations_le := le_refl 0
  added_le := Nat.zero_le _

theorem Tally.scanned (h : Tally p settings residual state g)
    (horder : g.order.Perm (candidates p residual)) {result : Except (Error α) Unit}
    {master : MasterProgram (Lp.Audited L α) α} (hsolve : g.state.master.solve = (result, master)) :
    ∃ added, added.length = (g.iterated p settings residual master).columnsAdded ∧
      MasterProgram.Grown p residual (state.master.reset p residual) added
        (g.iterated p settings residual master).state.master := by
  obtain ⟨added, hadded, hgrown⟩ := h.grown
  have hsolved := hgrown.solve
  rw [hsolve] at hsolved
  have hterms : (g.terms p settings residual master).WellFormed := wellFormed_terms horder master
  obtain ⟨more, hmore, hgrown'⟩ :=
    Pricing.Terms.grown_scan hterms { g.state with master } hsolved
  exact ⟨added ++ more, by rw [List.length_append, hadded, hmore]; rfl, hgrown'⟩

theorem Tally.iterated (h : Tally p settings residual state g)
    (horder : g.order.Perm (candidates p residual)) {master : MasterProgram (Lp.Audited L α) α}
    (hsolve : g.state.master.solve = (.ok (), master))
    (hadded : (g.scanAfter p settings residual master).added ≠ 0) :
    Tally p settings residual state (g.iterated p settings residual master) where
  solves := by
    obtain ⟨answers, hanswers, hlength, hok⟩ := h.solves
    obtain ⟨s, hs, hsolves, -⟩ := MasterProgram.solvedAs_of_solve hsolve
    refine ⟨s :: answers, ?_, by rw [List.length_cons, hlength]; rfl, ?_⟩
    · exact (Pricing.Terms.solves_scan _ _).trans (by rw [hsolves, hanswers]; rfl)
    · exact List.forall_mem_cons.mpr ⟨hs, hok⟩
  grown := h.scanned horder hsolve
  iterations_le := by
    have := h.iterations_le
    show g.iterations + 1 ≤ g.columnsAdded + (g.scanAfter p settings residual master).added
    omega
  added_le := by
    have hscan : (g.scanAfter p settings residual master).added ≤ settings.columnsPerIteration :=
      Pricing.Terms.added_scan_le _ _
    have := h.added_le
    show g.columnsAdded + (g.scanAfter p settings residual master).added ≤
      (g.iterations + 1) * settings.columnsPerIteration
    rw [Nat.succ_mul]
    omega

theorem Due.tally (h : Due p settings residual state g) : Tally p settings residual state g := by
  induction h with
  | start hreset =>
    rw [MasterProgram.resetChecked_eq_ok hreset]
    exact .start p settings residual state
  | next h hsolve hadded ih => exact ih.iterated h.order hsolve hadded

/-- What a run adds up to, from the state that it found to the state that it left. -/
structure Outcome.Tallied (p : Problem α) (settings : Settings α) (residual : List ℕ)
    (state final : SolverState (Lp.Audited L α) α) (outcome : Outcome α) : Prop where
  /-- The master program was solved once in each iteration, and once more at the limit. -/
  solves : final.master.solves.length = state.master.solves.length +
    match outcome.ending with
    | .converged => outcome.iterations
    | .limitReached => outcome.iterations + 1
  iterations_le_limit : outcome.iterations ≤ max 1 settings.iterationLimit
  /-- Behind what the reset left stand the itineraries that were added, with their columns. -/
  grown : ∃ added : List (Itinerary α), added.length = outcome.columnsAdded ∧
    final.master.itineraries = (state.master.reset p residual).itineraries ++ added ∧
    final.master.program.columns =
      (state.master.reset p residual).program.columns ++ added.map Itinerary.column
  iterations_le_added : outcome.iterations ≤ outcome.columnsAdded + 1
  iterations_le_of_limitReached : outcome.ending = .limitReached →
    outcome.iterations ≤ outcome.columnsAdded
  added_le : outcome.columnsAdded ≤ outcome.iterations * settings.columnsPerIteration
  added_le_allocations : outcome.columnsAdded ≤ (Itinerary.allocations residual p.capacity).card
  /-- No limit is needed for a run to end. -/
  iterations_le_allocations :
    outcome.iterations ≤ (Itinerary.allocations residual p.capacity).card + 1
  converged_of_allocations_lt :
    (Itinerary.allocations residual p.capacity).card < max 1 settings.iterationLimit →
      outcome.ending = .converged

theorem Tally.converged (h : Tally p settings residual state g)
    (horder : g.order.Perm (candidates p residual))
    (hlimit : g.iterations < max 1 settings.iterationLimit)
    {master : MasterProgram (Lp.Audited L α) α} (hsolve : g.state.master.solve = (.ok (), master))
    (hidle : (g.scanAfter p settings residual master).added = 0) :
    ((g.iterated p settings residual master).outcome settings .converged master.duals).Tallied
      p settings residual state (g.scanAfter p settings residual master).state := by
  obtain ⟨answers, hanswers, hlength, -⟩ := h.solves
  obtain ⟨s, -, hsolves, -⟩ := MasterProgram.solvedAs_of_solve hsolve
  obtain ⟨added, hcount, hgrown⟩ := h.scanned horder hsolve
  have hiterations := h.iterations_le
  -- the last iteration adds nothing: there is one more iteration than added itineraries, at most
  have hadded : (g.iterated p settings residual master).columnsAdded = g.columnsAdded :=
    congrArg (g.columnsAdded + ·) hidle
  have hbound : g.columnsAdded ≤ (Itinerary.allocations residual p.capacity).card := by
    rw [← hadded, ← hcount]
    exact hgrown.length_le
  constructor
  case solves =>
    have hscan : (g.scanAfter p settings residual master).state.master.solves = master.solves :=
      Pricing.Terms.solves_scan _ _
    rw [hscan, hsolves, hanswers]
    show (s :: (answers ++ state.master.solves)).length =
      state.master.solves.length + (g.iterations + 1)
    rw [List.length_cons, List.length_append, hlength]
    omega
  case grown => exact ⟨added, hcount, hgrown.itineraries, hgrown.columns⟩
  case converged_of_allocations_lt => exact fun _ => rfl
  case iterations_le_of_limitReached => rintro ⟨⟩
  case added_le =>
    show (g.iterated p settings residual master).columnsAdded ≤
      (g.iterations + 1) * settings.columnsPerIteration
    rw [hadded, Nat.succ_mul]
    exact h.added_le.trans (Nat.le_add_right _ _)
  case iterations_le_limit => exact hlimit
  case iterations_le_added =>
    show g.iterations + 1 ≤ (g.iterated p settings residual master).columnsAdded + 1
    omega
  case added_le_allocations => exact hadded.trans_le hbound
  case iterations_le_allocations => exact Nat.succ_le_succ (hiterations.trans hbound)

/-- The tally of an iteration at the limit, and one more solution. -/
theorem Tally.limitReached (h : Tally p settings residual state g)
    (hlimit : g.iterations = max 1 settings.iterationLimit)
    {master : MasterProgram (Lp.Audited L α) α}
    (hsolve : g.state.master.solve = (.ok (), master)) :
    Outcome.Tallied p settings residual state { g.state with master }
      ⟨.limitReached, g.iterations, master.objective, master.flightsAbove settings.tolerance,
        master.duals, g.columnsAdded⟩ := by
  obtain ⟨answers, hanswers, hlength, -⟩ := h.solves
  obtain ⟨s, -, hsolves, -⟩ := MasterProgram.solvedAs_of_solve hsolve
  obtain ⟨added, hcount, hgrown⟩ := h.grown
  have hsolved := hgrown.solve
  rw [hsolve] at hsolved
  have hiterations := h.iterations_le
  have hbound : g.columnsAdded ≤ (Itinerary.allocations residual p.capacity).card := by
    rw [← hcount]
    exact hgrown.length_le
  constructor
  case solves =>
    show master.solves.length = state.master.solves.length + (g.iterations + 1)
    rw [hsolves, hanswers, List.length_cons, List.length_append, hlength]
    omega
  case grown => exact ⟨added, hcount, hsolved.itineraries, hsolved.columns⟩
  case converged_of_allocations_lt =>
    -- each iteration so far has added an itinerary, so that there are too many for the allocations
    intro hlt
    omega
  case iterations_le_of_limitReached => exact fun _ => hiterations
  case added_le => exact h.added_le
  case iterations_le_limit => exact hlimit.le
  case iterations_le_added => exact hiterations.trans (Nat.le_succ _)
  case added_le_allocations => exact hbound
  case iterations_le_allocations => exact (hiterations.trans hbound).trans (Nat.le_succ _)

/-- Whatever the backend answers, the solutions, iterations and itineraries of a run that succeeds
are bounded by each other and by the number of allocations that there are. -/
theorem tallied_of_generate {final : SolverState (Lp.Audited L α) α} {outcome : Outcome α}
    (hrun : generate p settings residual state = (.ok outcome, final)) :
    outcome.Tallied p settings residual state final := by
  obtain ⟨-, hrefused⟩ | ⟨g, hdue, hlimit, hends⟩ := generate_ends p settings residual state
  · rw [hrefused] at hrun
    cases hrun
  · rw [hrun] at hends
    cases hends with
    | converged hsolve hidle => exact hdue.tally.converged hdue.order hlimit hsolve hidle
    | limitReached hsolve hadded hreached hlast =>
      exact (hdue.tally.iterated hdue.order hsolve hadded).limitReached hreached hlast

end ColumnGeneration

namespace Detour

open Problem (detour)

/-! One iteration for one itinerary, with the solutions before and after it. -/

def lp : Lp.Audited (Lp.Scripted ℚ) ℚ :=
  .start (.start 2 [.solution 8 [1, 1] [4, 4], .solution 6 [0, 0, 1] [4, 2]])

def priced : MasterProgram (Lp.Audited (Lp.Scripted ℚ) ℚ) ℚ :=
  ((MasterProgram.start lp).reset detour [0, 1, 1]).solve.2

def limited : MasterProgram (Lp.Audited (Lp.Scripted ℚ) ℚ) ℚ := (priced.append recorded).solve.2

theorem generate_limited : ∃ memory,
    ColumnGeneration.generate detour (settings 0) [0, 1, 1] ⟨.start lp, .empty⟩ =
      (.ok ⟨.limitReached, 1, limited.objective, limited.flightsAbove 0, limited.duals, 1⟩,
        ⟨limited, memory⟩) := by
  have hunknown : priced.contains recorded = false :=
    (MasterProgram.catalogued_reset _ _ _).contains_eq_false (m := priced) (by decide +kernel)
  have hbegins : ColumnGeneration.BeginsOn (terms 0) ⟨.start lp, .empty⟩ priced :=
    ⟨by decide, rfl, by decide +kernel, rfl, rfl⟩
  exact ⟨_, hbegins.generate_pair rfl pairs hunknown rfl rfl⟩

theorem tallied_of_generate_detour : ∃ outcome final,
    ColumnGeneration.generate detour (settings 0) [0, 1, 1] ⟨.start lp, .empty⟩ =
        (.ok outcome, final) ∧
      outcome.Tallied detour (settings 0) [0, 1, 1] ⟨.start lp, .empty⟩ final ∧
      outcome.iterations = 1 ∧ outcome.columnsAdded = 1 ∧
      (Itinerary.allocations [0, 1, 1] detour.capacity).card = 3 := by
  obtain ⟨memory, hrun⟩ := generate_limited
  exact ⟨_, _, hrun, ColumnGeneration.tallied_of_generate hrun, rfl, rfl, by decide +kernel⟩

end Detour

end OffshoreFlights
