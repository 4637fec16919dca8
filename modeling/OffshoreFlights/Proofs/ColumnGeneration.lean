import OffshoreFlights.ColumnGeneration
import OffshoreFlights.Proofs.Pricing.Scan

/-! What column generation does, whatever the LP backend answers. It goes through solutions of the
master program and scans at their dual values, so all that these preserve holds when it ends; and it
converges only on a scan that adds nothing. -/

namespace OffshoreFlights.ColumnGeneration

variable {L α : Type} [Scalar α] [Lp.Backend L α] {p : Problem α} {settings : Settings α}
  {residual : List ℕ}

/-- The scan of an iteration in which the solution left a certain master program. -/
def scanAfter (p : Problem α) (settings : Settings α) (residual : List ℕ)
    (g : ColumnGeneration L α) (master : MasterProgram L α) : Pricing.Scan L α :=
  (g.terms p settings residual master).scan { g.state with master }

/-- Column generation after one more iteration. -/
def iterated (p : Problem α) (settings : Settings α) (residual : List ℕ)
    (g : ColumnGeneration L α) (master : MasterProgram L α) : ColumnGeneration L α :=
  g.next (g.terms p settings residual master) (g.scanAfter p settings residual master)

section Steps

variable {left : ℕ} {g : ColumnGeneration L α} {master : MasterProgram L α}

theorem iterate_of_error {e : Error α} (hsolve : g.state.master.solve = (.error e, master)) :
    iterate p settings residual left g = (.error e, { g.state with master }) := by
  unfold iterate
  rw [hsolve]

variable (hsolve : g.state.master.solve = (.ok (), master))

include hsolve

theorem iterate_of_idle (hidle : (g.scanAfter p settings residual master).added = 0) :
    iterate p settings residual left g =
      (.ok ((g.iterated p settings residual master).outcome settings .converged master.duals),
        (g.scanAfter p settings residual master).state) := by
  unfold iterate
  rw [hsolve]
  exact if_pos hidle

theorem iterate_zero (hadded : (g.scanAfter p settings residual master).added ≠ 0) :
    iterate p settings residual 0 g =
      (g.iterated p settings residual master).endAtLimit settings := by
  unfold iterate
  rw [hsolve]
  exact if_neg hadded

theorem iterate_succ (hadded : (g.scanAfter p settings residual master).added ≠ 0) :
    iterate p settings residual (left + 1) g =
      iterate p settings residual left (g.iterated p settings residual master) := by
  conv_lhs => unfold iterate
  rw [hsolve]
  exact if_neg hadded

end Steps

/-- The iterations as an induction: what holds of each way in which they end, and is passed on to
the iteration before, holds of a run. -/
theorem iterate_induction
    {motive : ColumnGeneration L α → Except (Error α) (Outcome α) × SolverState L α → Prop}
    (failed : ∀ g e master, g.state.master.solve = (.error e, master) →
      motive g (.error e, { g.state with master }))
    (converged : ∀ g master, g.state.master.solve = (.ok (), master) →
      (g.scanAfter p settings residual master).added = 0 →
      motive g (.ok ((g.iterated p settings residual master).outcome settings .converged
        master.duals), (g.scanAfter p settings residual master).state))
    (limit : ∀ g master, g.state.master.solve = (.ok (), master) →
      (g.scanAfter p settings residual master).added ≠ 0 →
      motive g ((g.iterated p settings residual master).endAtLimit settings))
    (next : ∀ g master r, g.state.master.solve = (.ok (), master) →
      (g.scanAfter p settings residual master).added ≠ 0 →
      motive (g.iterated p settings residual master) r → motive g r)
    (left : ℕ) (g : ColumnGeneration L α) :
    motive g (iterate p settings residual left g) := by
  induction left using Nat.strong_induction_on generalizing g with
  | _ left ih =>
    match hsolve : g.state.master.solve with
    | (.error e, master) =>
      rw [iterate_of_error hsolve]
      exact failed g e master hsolve
    | (.ok (), master) =>
      by_cases hadded : (g.scanAfter p settings residual master).added = 0
      · rw [iterate_of_idle hsolve hadded]
        exact converged g master hsolve hadded
      · cases left with
        | zero =>
          rw [iterate_zero hsolve hadded]
          exact limit g master hsolve hadded
        | succ left =>
          rw [iterate_succ hsolve hadded]
          exact next g master _ hsolve hadded (ih left (Nat.lt_succ_self left) _)

/-! ### The order of the platforms -/

theorem mem_candidates {i : ℕ} :
    i ∈ candidates p residual ↔ (1 ≤ i ∧ i ≤ p.platformCount) ∧ 0 < residual.getD i 0 := by
  simp only [candidates, List.mem_filter, List.mem_map, List.mem_range, decide_eq_true_eq]
  constructor
  · rintro ⟨⟨j, hj, rfl⟩, hi⟩
    exact ⟨by omega, hi⟩
  · rintro ⟨hlocated, hi⟩
    exact ⟨⟨i - 1, by omega, by omega⟩, hi⟩

theorem nodup_candidates (p : Problem α) (residual : List ℕ) : (candidates p residual).Nodup :=
  (List.nodup_range.map (add_left_injective 1)).filter _

theorem wellFormed_of_perm {t : Pricing.Terms α}
    (h : t.candidates.Perm (candidates t.problem t.residual)) : t.WellFormed :=
  ⟨h.nodup_iff.mpr (nodup_candidates t.problem t.residual),
    fun _ hi => (mem_candidates.mp (h.mem_iff.mp hi)).1,
    fun _ hi => (mem_candidates.mp (h.mem_iff.mp hi)).2⟩

theorem wellFormed_terms {g : ColumnGeneration L α}
    (h : g.order.Perm (candidates p residual)) (master : MasterProgram L α) :
    (g.terms p settings residual master).WellFormed :=
  wellFormed_of_perm ((List.mergeSort_perm _ _).trans h)

theorem order_iterated {g : ColumnGeneration L α} (h : g.order.Perm (candidates p residual))
    (master : MasterProgram L α) :
    (g.iterated p settings residual master).order.Perm (candidates p residual) :=
  (List.mergeSort_perm _ _).trans h

/-! ### Runs -/

/-- What solutions of the master program and visits to sets of platforms preserve. -/
structure Preserved (p : Problem α) (settings : Settings α) (residual : List ℕ)
    (P : SolverState L α → Prop) : Prop where
  solve : ∀ st, P st → P { st with master := st.master.solve.2 }
  visit : ∀ (t : Pricing.Terms α) stops scan scan', t.problem = p → t.settings = settings →
    t.residual = residual → t.WellFormed → t.Visit stops scan scan' → P scan.state → P scan'.state

variable {P : SolverState L α → Prop}

theorem Preserved.solved (h : Preserved p settings residual P) {g : ColumnGeneration L α}
    {result : Except (Error α) Unit} {master : MasterProgram L α}
    (hsolve : g.state.master.solve = (result, master)) (hg : P g.state) :
    P { g.state with master } := by
  have := h.solve g.state hg
  rwa [hsolve] at this

theorem Preserved.scanned (h : Preserved p settings residual P) {g : ColumnGeneration L α}
    (horder : g.order.Perm (candidates p residual)) {result : Except (Error α) Unit}
    {master : MasterProgram L α} (hsolve : g.state.master.solve = (result, master))
    (hg : P g.state) : P (g.scanAfter p settings residual master).state :=
  Pricing.Terms.scan_preserves (P := fun _ st => P st)
    (fun stops scan scan' =>
      h.visit _ stops scan scan' rfl rfl rfl (wellFormed_terms horder master))
    (h.solved hsolve hg)

theorem iterate_preserves (h : Preserved p settings residual P) (left : ℕ)
    {g : ColumnGeneration L α} (horder : g.order.Perm (candidates p residual)) (hg : P g.state) :
    P (iterate p settings residual left g).2 := by
  revert horder hg
  refine iterate_induction (motive := fun g r => g.order.Perm (candidates p residual) →
    P g.state → P r.2) ?_ ?_ ?_ ?_ left g
  · intro g e master hsolve _ hg
    exact h.solved hsolve hg
  · intro g master hsolve _ horder hg
    exact h.scanned horder hsolve hg
  · intro g master hsolve _ horder hg
    exact h.solve _ (h.scanned horder hsolve hg)
  · intro g master r hsolve _ ih horder hg
    exact ih (order_iterated horder master) (h.scanned horder hsolve hg)

theorem endAtLimit_of_solve {g : ColumnGeneration L α} {master : MasterProgram L α}
    (hsolve : g.state.master.solve = (.ok (), master)) : g.endAtLimit settings =
      (.ok ⟨.limitReached, g.iterations, master.objective, master.flightsAbove settings.tolerance,
        master.duals, g.columnsAdded⟩, { g.state with master }) := by
  unfold endAtLimit
  rw [hsolve]
  rfl

theorem endAtLimit_of_ok {g : ColumnGeneration L α} (h : g.state.master.solve.1 = .ok ()) :
    ∃ outcome, (g.endAtLimit settings).1 = .ok outcome :=
  ⟨_, congrArg Prod.fst (endAtLimit_of_solve (Prod.ext h rfl))⟩

theorem solve_of_endAtLimit {g : ColumnGeneration L α} {outcome : Outcome α}
    {final : SolverState L α} (h : g.endAtLimit settings = (.ok outcome, final)) :
    ∃ master, g.state.master.solve = (.ok (), master) ∧
      outcome = ⟨.limitReached, g.iterations, master.objective,
        master.flightsAbove settings.tolerance, master.duals, g.columnsAdded⟩ ∧
      final = { g.state with master } := by
  cases hsolve : g.state.master.solve with
  | mk result master =>
    cases result with
    | error e =>
      unfold endAtLimit at h
      rw [hsolve] at h
      cases h
    | ok =>
      rw [endAtLimit_of_solve hsolve] at h
      obtain ⟨houtcome, rfl⟩ := Prod.mk.inj h
      exact ⟨master, rfl, (Except.ok.inj houtcome).symm, rfl⟩

theorem of_endAtLimit {g : ColumnGeneration L α} {outcome : Outcome α} {final : SolverState L α}
    (h : g.endAtLimit settings = (.ok outcome, final)) :
    outcome.ending = .limitReached ∧
      outcome.flights = final.master.flightsAbove settings.tolerance ∧
      outcome.duals.getD 0 0 = 0 := by
  obtain ⟨master, -, rfl, rfl⟩ := solve_of_endAtLimit h
  exact ⟨rfl, rfl, rfl⟩

/-- What is known when column generation has converged: the last solution of the master program
left the state `last`, and the scan after it added nothing. -/
structure Closing (p : Problem α) (settings : Settings α) (residual : List ℕ)
    (outcome : Outcome α) (final : SolverState L α) (t : Pricing.Terms α)
    (last : SolverState L α) : Prop where
  problem_eq : t.problem = p
  settings_eq : t.settings = settings
  residual_eq : t.residual = residual
  duals_eq : t.duals = last.master.duals
  order : ∃ order : List ℕ, order.Perm (candidates p residual) ∧
    t.candidates = Pricing.byFallingDual t.duals order
  idle : (t.scan last).added = 0
  scanned : (t.scan last).state = final
  reported : outcome.duals = t.duals
  objective : outcome.objective = final.master.objective

theorem iterate_closing (h : Preserved p settings residual P) (left : ℕ)
    {g : ColumnGeneration L α} (horder : g.order.Perm (candidates p residual)) (hg : P g.state)
    {outcome : Outcome α} {final : SolverState L α}
    (hrun : iterate p settings residual left g = (.ok outcome, final))
    (hending : outcome.ending = .converged) :
    ∃ t last, Closing p settings residual outcome final t last ∧ P last := by
  revert horder hg hrun
  refine iterate_induction (motive := fun g r => g.order.Perm (candidates p residual) →
    P g.state → r = (.ok outcome, final) →
      ∃ t last, Closing p settings residual outcome final t last ∧ P last) ?_ ?_ ?_ ?_ left g
  · rintro g e master _ _ _ ⟨⟩
  · rintro g master hsolve hidle horder hg hrun
    obtain ⟨houtcome, rfl⟩ := Prod.mk.inj hrun
    obtain rfl := Except.ok.inj houtcome
    exact ⟨_, _, ⟨rfl, rfl, rfl, rfl, ⟨g.order, horder, rfl⟩, hidle, rfl, rfl, rfl⟩,
      h.solved hsolve hg⟩
  · intro g master _ _ _ _ hrun
    exact absurd (hending.symm.trans (of_endAtLimit hrun).1) (by simp)
  · intro g master r hsolve _ ih horder hg
    exact ih (order_iterated horder master) (h.scanned horder hsolve hg)

/-! ### From the reset on -/

theorem generate_of_length_le (h : residual.length ≤ p.platformCount) (state : SolverState L α) :
    generate p settings residual state = (.error (.fault .outOfRange), state) := by
  rw [generate, MasterProgram.resetChecked, if_neg (by omega)]

theorem generate_of_lt_length (h : p.platformCount < residual.length) (state : SolverState L α) :
    generate p settings residual state =
      iterate p settings residual (settings.iterationLimit - 1)
        (start p residual { state with master := state.master.reset p residual }) := by
  rw [generate, MasterProgram.resetChecked, if_pos h]

theorem generate_preserves (h : Preserved p settings residual P) {state : SolverState L α}
    (hreset : p.platformCount < residual.length →
      P { state with master := state.master.reset p residual })
    (hstate : residual.length ≤ p.platformCount → P state) :
    P (generate p settings residual state).2 := by
  by_cases hlength : p.platformCount < residual.length
  · rw [generate_of_lt_length hlength]
    exact iterate_preserves h _ (List.Perm.refl _) (hreset hlength)
  · rw [generate_of_length_le (by omega)]
    exact hstate (by omega)

theorem generate_closing (h : Preserved p settings residual P) {state : SolverState L α}
    (hreset : p.platformCount < residual.length →
      P { state with master := state.master.reset p residual })
    {outcome : Outcome α} {final : SolverState L α}
    (hrun : generate p settings residual state = (.ok outcome, final))
    (hending : outcome.ending = .converged) :
    ∃ t last, Closing p settings residual outcome final t last ∧ P last := by
  by_cases hlength : p.platformCount < residual.length
  · rw [generate_of_lt_length hlength] at hrun
    exact iterate_closing h _ (List.Perm.refl _) (hreset hlength) hrun hending
  · rw [generate_of_length_le (by omega)] at hrun
    cases hrun

/-- The flights reported are those of the master program in the end, and the depot has no dual
value. -/
theorem report_of_generate {state final : SolverState L α} {outcome : Outcome α}
    (hrun : generate p settings residual state = (.ok outcome, final)) :
    outcome.flights = final.master.flightsAbove settings.tolerance ∧
      outcome.duals.getD 0 0 = 0 := by
  by_cases hlength : p.platformCount < residual.length
  · rw [generate_of_lt_length hlength] at hrun
    revert hrun
    refine iterate_induction (motive := fun _ r => r = (.ok outcome, final) →
      outcome.flights = final.master.flightsAbove settings.tolerance ∧
        outcome.duals.getD 0 0 = 0) ?_ ?_ ?_ ?_ _ _
    · rintro g e master _ ⟨⟩
    · rintro g master _ _ hrun
      obtain ⟨houtcome, rfl⟩ := Prod.mk.inj hrun
      obtain rfl := Except.ok.inj houtcome
      exact ⟨rfl, rfl⟩
    · exact fun g master _ _ hrun => (of_endAtLimit hrun).2
    · exact fun g master r _ _ ih => ih
  · rw [generate_of_length_le (by omega)] at hrun
    cases hrun

/-! ### What every run preserves -/

theorem preserved_filledFrom (p : Problem α) (settings : Settings α) (residual : List ℕ) :
    Preserved (L := L) p settings residual fun st => st.memory.FilledFrom p := by
  refine ⟨fun st h => h, fun t stops scan scan' hp _ _ ht hvisit h => ?_⟩
  subst hp
  rw [hvisit.memory]
  exact h.ask _ (hvisit.offered.askable ht)

theorem generate_filledFrom {state : SolverState L α} (h : state.memory.FilledFrom p) :
    (generate p settings residual state).2.memory.FilledFrom p :=
  generate_preserves (preserved_filledFrom p settings residual) (fun _ => h) fun _ => h

theorem preserved_catalogued (p : Problem α) (settings : Settings α) (residual : List ℕ) :
    Preserved (L := L) p settings residual fun st => st.master.Catalogued := by
  refine ⟨fun st h => h, fun t stops scan scan' _ _ _ _ hvisit h => ?_⟩
  rcases hvisit.look.master_eq_or_add with hmaster | hmaster <;> rw [hmaster]
  · exact h
  · exact h.add _

theorem Preserved.and {P Q : SolverState L α → Prop} (hP : Preserved p settings residual P)
    (hQ : Preserved p settings residual Q) :
    Preserved p settings residual fun st => P st ∧ Q st :=
  ⟨fun st h => ⟨hP.solve st h.1, hQ.solve st h.2⟩,
    fun t stops scan scan' hp hs hr ht hvisit h =>
      ⟨hP.visit t stops scan scan' hp hs hr ht hvisit h.1,
        hQ.visit t stops scan scan' hp hs hr ht hvisit h.2⟩⟩

end OffshoreFlights.ColumnGeneration
