import OffshoreFlights.Lp.Scripted
import OffshoreFlights.Proofs.Lp.Audited
import OffshoreFlights.Proofs.RangeLimit.Scans

/-! Column generation that adds one itinerary, for two platforms. The scan looks at the first
candidate, whose own tour does not pay, and then at the first two together. In exact arithmetic, the
lengths of the shortest tours say what such a scan finds, and when a scan finds nothing. -/

namespace OffshoreFlights

variable {K L : Type} [Field K] [LinearOrder K] [FloorRing K] [IsStrictOrderedRing K]
  [Lp.Backend L K]

/-! ### The first steps of a scan -/

namespace Pricing.Terms

section First

variable {L α : Type} [Scalar α] [Lp.Backend L α] {t : Terms α} {state : SolverState L α}
  {memory : TourMemory α} {i j : ℕ} {rest : List ℕ} {it : Itinerary α}

/-- The first candidate is within the range. It does not pay for its tour, but leaves a seat, so
that a scan goes on to its extensions. -/
structure Opens (t : Terms α) (memory : TourMemory α) (i : ℕ) (rest : List ℕ) : Prop where
  candidates : t.candidates = i :: rest
  columns : 0 < t.settings.columnsPerIteration
  within : ¬t.problem.range < (t.ask memory [i]).1
  dear : ¬t.improves (t.itinerary [i] (t.ask memory [i]).1) = true
  seat : t.waiting [i] < t.problem.capacity

/-- The first candidate pays for a tour together with the second one. -/
structure Pairs (t : Terms α) (memory : TourMemory α) (i j : ℕ) (rest : List ℕ)
    (it : Itinerary α) : Prop extends Opens t memory i (j :: rest) where
  pair : t.itinerary [i, j] (t.ask (t.ask memory [i]).2 [i, j]).1 = it
  pair_within : ¬t.problem.range < (t.ask (t.ask memory [i]).2 [i, j]).1
  improves : t.improves it = true

theorem stopsAt_first (h : t.candidates = i :: rest) : t.stopsAt [0] = [i] := by
  simp [stopsAt, h]

theorem stopsAt_pair (h : t.candidates = i :: j :: rest) : t.stopsAt [0, 1] = [i, j] := by
  simp [stopsAt, h]

theorem Opens.scanFrom (h : t.Opens state.memory i rest) (steps : ℕ) :
    t.scanFrom (steps + 1) ⟨.start t.candidates.length, true, 0, state⟩ =
      t.scanFrom steps ⟨⟨rest.length + 1, [0], false⟩, true, 0,
        ⟨state.master, (t.ask state.memory [i]).2⟩⟩ := by
  have hstops := stopsAt_first h.candidates
  rw [show t.candidates.length = rest.length + 1 by rw [h.candidates]; rfl, scanFrom_succ,
    if_pos h.columns]
  show t.scanFrom steps (t.appraise [0] ⟨⟨rest.length + 1, [0], false⟩, true, 0, state⟩) = _
  rw [appraise_of_dear (by rw [hstops]; exact h.within) (by rw [hstops]; exact h.dear), hstops,
    decide_eq_true h.seat]

theorem Pairs.scan (h : t.Pairs state.memory i j rest it)
    (hcolumns : t.settings.columnsPerIteration = 1) (hunknown : state.master.contains it = false) :
    ∃ walk extend, t.scan state = ⟨walk, extend, 1,
      ⟨(state.master.add it).2, (t.ask (t.ask state.memory [i]).2 [i, j]).2⟩⟩ := by
  have hstops := stopsAt_pair h.candidates
  obtain ⟨steps, hsteps⟩ : ∃ steps, SubsetWalk.stepBound t.candidates.length = steps + 3 := by
    refine ⟨2 ^ t.candidates.length - 3, (Nat.sub_add_cancel ?_).symm⟩
    calc 3 ≤ 2 ^ 2 := by decide
      _ ≤ 2 ^ t.candidates.length := Nat.pow_le_pow_right (by decide) (by simp [h.candidates])
  refine ⟨⟨rest.length + 2, [1, 0], false⟩, decide (t.waiting [i, j] < t.problem.capacity), ?_⟩
  show t.scanFrom (SubsetWalk.stepBound t.candidates.length) _ = _
  rw [hsteps, h.scanFrom, scanFrom_succ, if_pos h.columns]
  show t.scanFrom (steps + 1) (t.appraise [0, 1] ⟨⟨rest.length + 2, [1, 0], false⟩, true, 0,
    ⟨state.master, (t.ask state.memory [i]).2⟩⟩) = _
  rw [appraise_of_improves (by rw [hstops]; exact h.pair_within) (by rw [hstops, h.pair])
    h.improves, hstops, MasterProgram.add_of_not_contains hunknown, scanFrom_succ,
    if_neg (by rw [hcolumns]; exact lt_irrefl 1)]
  rfl

theorem refuses_first (hcandidates : t.candidates = i :: rest)
    (hcolumns : 0 < t.settings.columnsPerIteration)
    (hrange : t.problem.range < (t.ask state.memory [i]).1) : t.Refuses state [i] := by
  rw [← stopsAt_first hcandidates] at hrange ⊢
  refine .beyond 0 [0] ⟨rest.length + 1, [0], false⟩ hcolumns ?_ hrange
  rw [scanned, hcandidates]
  rfl

theorem Opens.refuses_pair (h : t.Opens state.memory i (j :: rest))
    (hrange : t.problem.range < (t.ask (t.ask state.memory [i]).2 [i, j]).1) :
    t.Refuses state [i, j] := by
  have hscanned : t.scanned 1 state = ⟨⟨rest.length + 2, [0], false⟩, true, 0,
      ⟨state.master, (t.ask state.memory [i]).2⟩⟩ := h.scanFrom 0
  rw [← stopsAt_pair h.candidates] at hrange ⊢
  refine .beyond 1 [0, 1] ⟨rest.length + 2, [1, 0], false⟩ ?_ ?_ ?_ <;> rw [hscanned]
  · exact h.columns
  · rfl
  · exact hrange

end First

theorem pairs_of_filledFrom {t : Terms K} (hsymm : t.problem.Symmetric)
    (hslack : 0 ≤ t.settings.rangeSlack) {i j : ℕ} {rest : List ℕ}
    (hcandidates : t.candidates = i :: j :: rest) (hcolumns : 0 < t.settings.columnsPerIteration)
    (haskable : t.problem.Askable [i, j]) {single pair : K}
    (hsingle : t.problem.optimum {i} = single) (hpair : t.problem.optimum {i, j} = pair)
    (hrange : single ≤ t.problem.range) (hrange' : pair ≤ t.problem.range)
    (hdear : ¬t.improves (t.itinerary [i] single) = true)
    (hseat : t.waiting [i] < t.problem.capacity)
    (himproves : t.improves (t.itinerary [i, j] pair) = true) {memory : TourMemory K}
    (hmemory : memory.FilledFrom t.problem) :
    t.Pairs memory i j rest (t.itinerary [i, j] pair) := by
  have haskable' : t.problem.Askable [i] :=
    ⟨List.nodup_singleton i, fun k hk => haskable.located k (by simp_all)⟩
  have hasked : (t.ask memory [i]).2.FilledFrom t.problem := hmemory.ask _ haskable'
  have hask : (t.ask memory [i]).1 = single := by
    rw [hmemory.ask_eq_min hsymm haskable' (List.cons_ne_nil i []), List.toFinset_cons,
      List.toFinset_nil, insert_empty_eq, hsingle]
    exact min_eq_right (by linarith)
  have hask' : (t.ask (t.ask memory [i]).2 [i, j]).1 = pair := by
    rw [hasked.ask_eq_min hsymm haskable (List.cons_ne_nil i [j]), List.toFinset_cons,
      List.toFinset_cons, List.toFinset_nil, insert_empty_eq, hpair]
    exact min_eq_right (by linarith)
  refine ⟨⟨hcandidates, hcolumns, ?_, ?_, hseat⟩, ?_, ?_, himproves⟩
  · rw [hask]
    exact not_lt.mpr hrange
  · rw [hask]
    exact hdear
  · rw [hask']
  · rw [hask']
    exact not_lt.mpr hrange'

/-! ### Scans that add nothing -/

/-- A scan adds nothing when no set of candidates within the range pays for its shortest tour. -/
theorem idle_of_dear {t : Terms K} (ht : t.WellFormed) (hsymm : t.problem.Symmetric)
    (hslack : 0 < t.settings.rangeSlack) {state : SolverState L K}
    (hmemory : state.memory.Sound t.problem)
    (hdear : ∀ stops, stops ≠ [] → stops.Sublist t.candidates →
      t.problem.optimum stops.toFinset ≤ t.problem.range →
        t.improves (t.itinerary stops (t.problem.optimum stops.toFinset)) = false) :
    (t.scan state).added = 0 := by
  refine (scan_preserves (P := fun n st => n = 0 ∧ st.memory.Sound t.problem) ?_
    ⟨rfl, hmemory⟩).1
  rintro stops scan scan' hvisit ⟨hnone, hsound⟩
  refine ⟨?_, hvisit.sound ht hsymm hsound⟩
  cases hvisit.look with
  | beyondRange _ _ added | tooDear _ _ _ added | held _ _ _ added => exact added.trans hnone
  | new hrange _ himproves =>
    have hoffered := hvisit.offered
    have hwithin := hoffered.optimum_le_range ht hsymm hslack hsound hrange
    rw [ask_of_le_range ht hsymm hslack hsound hoffered hwithin,
      hdear stops hoffered.nonempty hoffered.sublist hwithin] at himproves
    cases himproves

end Pricing.Terms

/-! ### Iterations -/

/-- A master program with one more itinerary. -/
def MasterProgram.append {L α : Type} [Scalar α] [Lp.Backend L α] (m : MasterProgram L α)
    (it : Itinerary α) : MasterProgram L α :=
  { m with
    lp := Lp.Backend.addColumn m.lp it.column
    itineraries := m.itineraries ++ [it]
    known := m.known.insert it.allocation }

namespace ColumnGeneration

/-- Column generation before its first iteration. -/
def begun {L α : Type} [Scalar α] [Lp.Backend L α] (t : Pricing.Terms α) (state : SolverState L α) :
    ColumnGeneration L α :=
  start t.problem t.residual { state with master := state.master.reset t.problem t.residual }

/-- A scan that adds nothing leaves the last solution of the master program as the outcome. -/
theorem iterate_converged {L α : Type} [Scalar α] [Lp.Backend L α] {p : Problem α}
    {settings : Settings α} {residual : List ℕ} {g : ColumnGeneration L α}
    {master : MasterProgram L α} (hsolve : g.state.master.solve = (.ok (), master))
    (hidle : (g.scanAfter p settings residual master).added = 0) (left : ℕ) :
    iterate p settings residual left g =
      (.ok ⟨.converged, g.iterations + 1, master.objective,
        master.flightsAbove settings.tolerance, master.duals, g.columnsAdded⟩,
        ⟨master, (g.scanAfter p settings residual master).state.memory⟩) := by
  have hstate : (g.scanAfter p settings residual master).state =
      ⟨master, (g.scanAfter p settings residual master).state.memory⟩ :=
    congrArg (SolverState.mk · _) (Pricing.Terms.master_of_idle_scan hidle)
  rw [iterate_of_idle hsolve hidle, iterated, next, outcome, hidle, hstate]
  rfl

omit [IsStrictOrderedRing K]

theorem terms_of_pairwise {p : Problem K} {settings : Settings K}
    {residual : List ℕ} {g : ColumnGeneration L K} {master : MasterProgram L K}
    (h : g.order.Pairwise fun i j => master.duals.getD j 0 ≤ master.duals.getD i 0) :
    g.terms p settings residual master = ⟨p, settings, residual, master.duals, g.order⟩ := by
  rw [terms, Pricing.byFallingDual_of_pairwise h]

/-- The first solution of the master program leads to a scan on certain terms, with the candidates
in the order of the problem. -/
structure BeginsOn (t : Pricing.Terms K) (state : SolverState L K) (first : MasterProgram L K) :
    Prop where
  length : t.problem.platformCount < t.residual.length
  order : candidates t.problem t.residual = t.candidates
  falling : t.candidates.Pairwise fun i j => t.duals.getD j 0 ≤ t.duals.getD i 0
  solved : (state.master.reset t.problem t.residual).solve = (.ok (), first)
  duals : first.duals = t.duals

namespace BeginsOn

variable {t : Pricing.Terms K} {state : SolverState L K} {first : MasterProgram L K}
  (h : BeginsOn t state first)

include h

theorem terms_eq : (begun t state).terms t.problem t.settings t.residual first = t := by
  have horder : (begun t state).order = t.candidates := h.order
  rw [terms_of_pairwise (by rw [horder, h.duals]; exact h.falling), horder, h.duals]

theorem scanAfter_eq : (begun t state).scanAfter t.problem t.settings t.residual first =
    t.scan ⟨first, state.memory⟩ := by
  rw [scanAfter, h.terms_eq]
  rfl

theorem due : Due t.problem t.settings t.residual state (begun t state) :=
  .start (MasterProgram.resetChecked_of_lt h.length)

theorem generate_eq : generate t.problem t.settings t.residual state =
    iterate t.problem t.settings t.residual (t.settings.iterationLimit - 1) (begun t state) :=
  generate_of_lt_length h.length state

/-- One iteration for nothing. -/
theorem generate_idle (hidle : (t.scan ⟨first, state.memory⟩).added = 0) :
    generate t.problem t.settings t.residual state =
      (.ok ⟨.converged, 1, first.objective, first.flightsAbove t.settings.tolerance, first.duals,
        0⟩, ⟨first, (t.scan ⟨first, state.memory⟩).state.memory⟩) := by
  have hnone : ((begun t state).scanAfter t.problem t.settings t.residual first).added = 0 := by
    rw [h.scanAfter_eq, hidle]
  rw [h.generate_eq, iterate_converged h.solved hnone, h.scanAfter_eq]
  rfl

section Pair

variable {i j : ℕ} {rest : List ℕ} {it : Itinerary K}
  (hcolumns : t.settings.columnsPerIteration = 1) (hpairs : t.Pairs state.memory i j rest it)
  (hunknown : first.contains it = false)

include hcolumns hpairs hunknown

/-- One iteration for one itinerary, which the first two candidates make up. -/
theorem iterated_pair :
    ((begun t state).scanAfter t.problem t.settings t.residual first).added = 1 ∧
      (begun t state).iterated t.problem t.settings t.residual first =
        ⟨1, 1, t.candidates, first.append it, (t.ask (t.ask state.memory [i]).2 [i, j]).2⟩ := by
  have hpairs : t.Pairs (⟨first, state.memory⟩ : SolverState L K).memory i j rest it := hpairs
  obtain ⟨walk, extend, hscan⟩ := hpairs.scan hcolumns hunknown
  rw [iterated, h.scanAfter_eq, hscan, h.terms_eq, MasterProgram.add_of_not_contains hunknown]
  exact ⟨rfl, rfl⟩

variable {second : MasterProgram L K} (hsecond : (first.append it).solve = (.ok (), second))

include hsecond

theorem generate_pair (hlimit : t.settings.iterationLimit = 1) :
    generate t.problem t.settings t.residual state =
      (.ok ⟨.limitReached, 1, second.objective, second.flightsAbove t.settings.tolerance,
        second.duals, 1⟩, ⟨second, (t.ask (t.ask state.memory [i]).2 [i, j]).2⟩) := by
  obtain ⟨hadded, hiterated⟩ := h.iterated_pair hcolumns hpairs hunknown
  rw [h.generate_eq, hlimit, iterate_zero h.solved (by rw [hadded]; exact one_ne_zero), hiterated,
    endAtLimit_of_solve hsecond]

/-- A second iteration for nothing. -/
theorem generate_pair_idle (hlimit : 1 < t.settings.iterationLimit)
    (hfalling : t.candidates.Pairwise fun i j => second.duals.getD j 0 ≤ second.duals.getD i 0)
    (hidle : (Pricing.Terms.scan { t with duals := second.duals }
      ⟨second, (t.ask (t.ask state.memory [i]).2 [i, j]).2⟩).added = 0) : ∃ memory,
    generate t.problem t.settings t.residual state =
      (.ok ⟨.converged, 2, second.objective, second.flightsAbove t.settings.tolerance,
        second.duals, 1⟩, ⟨second, memory⟩) := by
  obtain ⟨hadded, hiterated⟩ := h.iterated_pair hcolumns hpairs hunknown
  obtain ⟨left, hleft⟩ : ∃ left, t.settings.iterationLimit - 1 = left + 1 :=
    ⟨t.settings.iterationLimit - 2, by omega⟩
  set g : ColumnGeneration L K :=
    ⟨1, 1, t.candidates, first.append it, (t.ask (t.ask state.memory [i]).2 [i, j]).2⟩
  have hnone : (g.scanAfter t.problem t.settings t.residual second).added = 0 := by
    rw [scanAfter, terms_of_pairwise hfalling]
    exact hidle
  rw [h.generate_eq, hleft, iterate_succ h.solved (by rw [hadded]; exact one_ne_zero), hiterated,
    iterate_converged hsecond hnone]
  exact ⟨_, rfl⟩

end Pair

end BeginsOn

end ColumnGeneration

/-! ### Two rounds of one pair each -/

/-- Three platforms on one line with the depot, at 2, 3 and 1 units. -/
def Problem.collinear : Problem ℚ where
  platforms := [.depot, ⟨1, 2, 0, 1⟩, ⟨2, 3, 0, 2⟩, ⟨3, 1, 0, 1⟩]
  distances := ⟨4, #[0, 2, 3, 1, 2, 0, 1, 1, 3, 1, 0, 2, 1, 1, 2, 0], rfl⟩
  capacity := 2
  range := 6
  sound := by decide +kernel

namespace Collinear

open Problem (collinear)

/-! Both rounds make one iteration for one itinerary, the early one for the outer two platforms,
the late one for the inner two. `earlyPriced` and `latePriced` are the master programs after the
solutions that the scans price, `earlyMaster` and `lateMaster` those after the last solution of each
round. -/

def settings : Settings ℚ := ⟨1, 1, 0, 1, 1⟩

/-- A tolerance with which the rounds go the same way. -/
def tolerant : Settings ℚ := { settings with tolerance := 1 / 10 }

/-- The optimal solutions, in their order. -/
def lp : Lp.Scripted ℚ :=
  .start 3 [.solution 12 [1, 1, 1] [4, 3, 2], .solution 11 [0, 1 / 2, 1, 1] [3, 3, 2],
    .solution 6 [1, 0, 1] [4, 0, 2], .solution 4 [0, 0, 0, 1] [2, 0, 2]]

def earlyTerms (s : Settings ℚ) : Pricing.Terms ℚ :=
  ⟨collinear, s, [0, 1, 2, 1], [0, 4, 3, 2], [1, 2, 3]⟩

def lateTerms (s : Settings ℚ) : Pricing.Terms ℚ :=
  ⟨collinear, s, [0, 1, 0, 1], [0, 4, 0, 2], [1, 3]⟩

def outerPair : Itinerary ℚ := (earlyTerms settings).itinerary [1, 2] 6

def innerPair : Itinerary ℚ := (lateTerms settings).itinerary [1, 3] 4

theorem symmetric : collinear.Symmetric := by decide +kernel

theorem optimum_outerPair : collinear.optimum {1, 2} = 6 := by
  rw [Problem.optimum, Tour.optimum_pair (by decide)]
  decide +kernel

theorem optimum_innerPair : collinear.optimum {1, 3} = 4 := by
  rw [Problem.optimum, Tour.optimum_pair (by decide)]
  decide +kernel

theorem optimum_first : collinear.optimum {1} = 4 := by
  rw [Problem.optimum, Tour.optimum_singleton]
  decide +kernel

theorem askable_first : collinear.Askable [1] := ⟨by decide, by decide⟩

theorem askable_outerPair : collinear.Askable [1, 2] := ⟨by decide, by decide⟩

theorem askable_innerPair : collinear.Askable [1, 3] := ⟨by decide, by decide⟩

def earlyPriced : MasterProgram (Lp.Audited (Lp.Scripted ℚ) ℚ) ℚ :=
  ((MasterProgram.start (Lp.Audited.start lp)).reset collinear [0, 1, 2, 1]).solve.2

def earlyMaster : MasterProgram (Lp.Audited (Lp.Scripted ℚ) ℚ) ℚ :=
  (earlyPriced.append outerPair).solve.2

def latePriced : MasterProgram (Lp.Audited (Lp.Scripted ℚ) ℚ) ℚ :=
  ((earlyMaster.removeUnfit [0, 1, 0, 1]).2.reset collinear [0, 1, 0, 1]).solve.2

def lateMaster : MasterProgram (Lp.Audited (Lp.Scripted ℚ) ℚ) ℚ :=
  (latePriced.append innerPair).solve.2

def asked : TourMemory ℚ :=
  ((earlyTerms settings).ask ((earlyTerms settings).ask .empty [1]).2 [1, 2]).2

theorem filledFrom_asked : asked.FilledFrom collinear :=
  .ask _ (.ask _ .empty askable_first) askable_outerPair

theorem contains_outerPair : earlyPriced.contains outerPair = false :=
  (MasterProgram.catalogued_reset _ _ _).contains_eq_false (m := earlyPriced) (by decide +kernel)

theorem contains_innerPair : latePriced.contains innerPair = false :=
  (MasterProgram.catalogued_reset _ _ _).contains_eq_false (m := latePriced) (by decide +kernel)

def before : Rounding (Lp.Audited (Lp.Scripted ℚ) ℚ) ChooseFirst ℚ :=
  .start collinear ⟨.start (Lp.Audited.start lp), .empty⟩ ⟨⟩

def earlyFlight : FractionalFlight ℚ :=
  ⟨MasterProgram.basisItinerary collinear [0, 1, 2, 1] 2, 1 / 2⟩

def lateFlight : FractionalFlight ℚ := ⟨innerPair, 1⟩

def between : Rounding (Lp.Audited (Lp.Scripted ℚ) ℚ) ChooseFirst ℚ :=
  ⟨[0, 1, 0, 1], 2, ⟨[⟨earlyFlight.itinerary, 1⟩]⟩, 11, 1,
    ⟨(earlyMaster.removeUnfit [0, 1, 0, 1]).2, asked⟩, ⟨⟩⟩

/-- The plan flies to the second platform alone, and then to the others at once. -/
def whole : WholePlan ℚ := ⟨⟨[⟨earlyFlight.itinerary, 1⟩, ⟨innerPair, 1⟩]⟩, 11, 2⟩

section Rounds

variable {s : Settings ℚ} (hs : s = settings ∨ s = tolerant)

include hs

theorem pairs_earlyTerms : (earlyTerms s).Pairs .empty 1 2 [3] outerPair := by
  show (earlyTerms s).Pairs .empty 1 2 [3] ((earlyTerms s).itinerary [1, 2] 6)
  apply Pricing.Terms.pairs_of_filledFrom
  case hsingle => exact optimum_first
  case hpair => exact optimum_outerPair
  case haskable => exact askable_outerPair
  case hmemory => exact .empty
  all_goals rcases hs with rfl | rfl <;> decide +kernel

theorem pairs_lateTerms {memory : TourMemory ℚ} (hmemory : memory.FilledFrom collinear) :
    (lateTerms s).Pairs memory 1 3 [] innerPair := by
  show (lateTerms s).Pairs memory 1 3 [] ((lateTerms s).itinerary [1, 3] 4)
  apply Pricing.Terms.pairs_of_filledFrom
  case hsingle => exact optimum_first
  case hpair => exact optimum_innerPair
  case haskable => exact askable_innerPair
  case hmemory => exact hmemory
  all_goals rcases hs with rfl | rfl <;> decide +kernel

theorem beginsOn_earlyTerms :
    ColumnGeneration.BeginsOn (earlyTerms s) before.solver earlyPriced := by
  rcases hs with rfl | rfl
  all_goals exact ⟨by decide, rfl, by decide +kernel, rfl, rfl⟩

theorem beginsOn_lateTerms :
    ColumnGeneration.BeginsOn (lateTerms s) between.solver latePriced := by
  rcases hs with rfl | rfl
  all_goals exact ⟨by decide, rfl, by decide +kernel, rfl, rfl⟩

theorem generate_early : ColumnGeneration.generate collinear s [0, 1, 2, 1] before.solver =
    (.ok ⟨.limitReached, 1, earlyMaster.objective, earlyMaster.flightsAbove s.tolerance,
      earlyMaster.duals, 1⟩, ⟨earlyMaster, asked⟩) := by
  have hbegins := beginsOn_earlyTerms hs
  have hpairs := pairs_earlyTerms hs
  rcases hs with rfl | rfl
  all_goals exact hbegins.generate_pair rfl hpairs contains_outerPair rfl rfl

theorem round_before : before.round collinear s = (none, between) := by
  have hrun := generate_early hs
  rcases hs with rfl | rfl
  all_goals
    rw [Rounding.round_of_choose (r := before) hrun rfl
      (show (before.choice _)[0]? = some earlyFlight by with_unfolding_all rfl)]
    with_unfolding_all rfl

theorem generate_late : ∃ memory,
    ColumnGeneration.generate collinear s [0, 1, 0, 1] between.solver =
      (.ok ⟨.limitReached, 1, lateMaster.objective, lateMaster.flightsAbove s.tolerance,
        lateMaster.duals, 1⟩, ⟨lateMaster, memory⟩) := by
  have hbegins := beginsOn_lateTerms hs
  have hpairs := pairs_lateTerms hs filledFrom_asked
  rcases hs with rfl | rfl
  all_goals exact ⟨_, hbegins.generate_pair rfl hpairs contains_innerPair rfl rfl⟩

theorem finish_before : ∃ after, before.finish collinear s = (none, after) ∧
    ⟨after.plan, after.bound, after.rounds⟩ = whole ∧
      after.solver.master = (lateMaster.removeUnfit after.residual).2 := by
  obtain ⟨memory, hrun⟩ := generate_late hs
  have hround : between.round collinear s = _ :=
    Rounding.round_of_choose (r := between) hrun rfl
      (show (between.choice _)[0]? = some lateFlight by
        rcases hs with rfl | rfl <;> with_unfolding_all rfl)
  refine ⟨_, (Rounding.finish_of_round_eq_none (by decide) (round_before hs)).trans
    ((Rounding.finish_of_round_eq_none (by decide) hround).trans
      (Rounding.finish_of_remaining_eq_zero ?_)), ?_, rfl⟩
  all_goals rcases hs with rfl | rfl <;> with_unfolding_all rfl

theorem wholePlan_eq :
    (Rounding.wholePlan collinear s ⟨.start lp, .empty⟩ ChooseFirst.mk).1 = .ok whole := by
  obtain ⟨after, hfinish, hwhole, -⟩ := finish_before hs
  exact hwhole ▸ Lp.Audited.hom_backend.wholePlan_eq_ok hfinish

end Rounds

end Collinear

end OffshoreFlights
