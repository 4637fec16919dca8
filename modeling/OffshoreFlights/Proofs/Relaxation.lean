import OffshoreFlights.Planner
import OffshoreFlights.Proofs.ColumnGeneration.Pairs
import OffshoreFlights.Proofs.Itinerary.Column
import OffshoreFlights.Proofs.Pricing.Domination

/-! What a relaxation that has converged says about all flights, not only about those in the master
program. Where distances are symmetric and no detour is a short cut, its objective is a lower bound
of all whole plans. -/

namespace OffshoreFlights

/-! ### Ways to use a master program and a planner -/

/-- A master program used only by column generation and rounding for one problem, with any settings
and on memories of that problem. -/
inductive MasterProgram.UsedOn {L α : Type} [Scalar α] [Lp.Backend L α] (p : Problem α) :
    MasterProgram L α → Prop
  | start (lp : L) : UsedOn p (.start lp)
  | generate {m : MasterProgram L α} (settings : Settings α) (residual : List ℕ)
    {memory : TourMemory α} : UsedOn p m → memory.FilledFrom p →
      UsedOn p (ColumnGeneration.generate p settings residual ⟨m, memory⟩).2.master
  | wholePlan {S : Type} [FlightChooser S α] {m : MasterProgram L α} (settings : Settings α)
    {memory : TourMemory α} (chooser : S) : UsedOn p m → memory.FilledFrom p →
      UsedOn p (Rounding.wholePlan p settings ⟨m, memory⟩ chooser).2.1.master

/-- A planner after any runs, over any backends and with any choosers. -/
inductive Planner.Reached {α : Type} [Scalar α] : Planner α → Prop
  | start (problem : Problem α) (settings : Settings α) : Reached (.start problem settings)
  | forget {planner : Planner α} : Reached planner → Reached planner.forget
  | relaxedPlan {L : Type} [Lp.Backend L α] {planner : Planner α} (lp : L) :
    Reached planner → Reached (planner.relaxedPlan lp).2.2
  | wholePlan {L S : Type} [Lp.Backend L α] [FlightChooser S α] {planner : Planner α} (lp : L)
    (chooser : S) : Reached planner → Reached (planner.wholePlan lp chooser).2.2.2

section Runs

variable {L S α : Type} [Scalar α] [Lp.Backend L α] [FlightChooser S α]

theorem Rounding.wholePlan_filledFrom {p : Problem α} {settings : Settings α}
    {solver : SolverState L α} (h : solver.memory.FilledFrom p) (chooser : S) :
    (wholePlan p settings solver chooser).2.1.memory.FilledFrom p :=
  wholePlan_preserves (P := fun st => st.memory.FilledFrom p)
    (fun _ _ h => ColumnGeneration.generate_filledFrom h) (fun _ _ h => h) h chooser

theorem Planner.Reached.filledFrom {planner : Planner α} (h : planner.Reached) :
    planner.memory.FilledFrom planner.problem := by
  induction h with
  | start | forget => exact .empty
  | relaxedPlan lp _ ih => exact ColumnGeneration.generate_filledFrom ih
  | wholePlan lp chooser _ ih => exact Rounding.wholePlan_filledFrom ih chooser

theorem Planner.relaxedPlan_eq_ok {planner : Planner α} {lp : L} {relaxed : RelaxedPlan α} :
    (planner.relaxedPlan lp).1 = .ok relaxed ↔
      ∃ outcome final, ColumnGeneration.generate planner.problem planner.settings
          planner.problem.demands (planner.solver lp) = (.ok outcome, final) ∧
        relaxed = ⟨outcome.flights, final.master.itineraries, outcome.objective, outcome.ending,
          outcome.iterations, outcome.duals⟩ := by
  unfold relaxedPlan
  generalize ColumnGeneration.generate planner.problem planner.settings planner.problem.demands
    (planner.solver lp) = run
  constructor
  · match run with
    | (.ok outcome, final) => exact fun h => ⟨outcome, final, rfl, (Except.ok.inj h).symm⟩
    | (.error e, final) => rintro ⟨⟩
  · rintro ⟨outcome, final, rfl, rfl⟩
    rfl

end Runs

section Exact

variable {K L : Type} [Field K] [LinearOrder K] [FloorRing K] [IsStrictOrderedRing K]
  [Lp.Backend L K] {p : Problem K}

theorem Rounding.wholePlan_stocked {S : Type} [FlightChooser S K] (hsymm : p.Symmetric)
    {settings : Settings K} {solver : SolverState L K} (hmemory : solver.memory.FilledFrom p)
    (h : solver.master.Stocked p) (chooser : S) :
    (wholePlan p settings solver chooser).2.1.master.Stocked p :=
  (wholePlan_preserves (P := fun st => st.memory.FilledFrom p ∧ st.master.Stocked p)
    (fun _ _ h => ⟨ColumnGeneration.generate_filledFrom h.1,
      ColumnGeneration.generate_stocked hsymm h.1 h.2⟩)
    (fun residual _ h => ⟨h.1, h.2.removeUnfit residual⟩) ⟨hmemory, h⟩ chooser).2

theorem MasterProgram.UsedOn.stocked (hsymm : p.Symmetric) {m : MasterProgram L K}
    (h : m.UsedOn p) : m.Stocked p := by
  induction h with
  | start lp => exact stocked_start p lp
  | generate settings residual _ hmemory ih =>
    exact ColumnGeneration.generate_stocked hsymm hmemory ih
  | wholePlan settings chooser _ hmemory ih =>
    exact Rounding.wholePlan_stocked hsymm hmemory ih chooser

/-! ### Convergence -/

namespace ColumnGeneration

variable {settings : Settings K} {residual : List ℕ}

/-- At convergence every sortie for the residual demands costs what its passengers are worth, but
for the tolerance and for those that an itinerary in the master program betters. -/
theorem sortie_of_stocked (hsymm : p.Symmetric) (htriangle : p.Triangular)
    (hslack : 0 < settings.rangeSlack) (htolerance : 0 ≤ settings.tolerance)
    (hcolumns : 1 ≤ settings.columnsPerIteration) {state final : SolverState L K}
    (hmemory : state.memory.FilledFrom p) (hstocked : state.master.Stocked p)
    {outcome : Outcome K} (hrun : generate p settings residual state = (.ok outcome, final))
    (hending : outcome.ending = .converged) (s : p.Sortie)
    (hload : ∀ i, s.load i ≤ residual.getD i 0) :
    -settings.tolerance ≤ (s.reducedCost fun i => outcome.duals.getD i 0) ∨
      ∃ it ∈ final.master.itineraries,
        it.reducedCost outcome.duals ≤ s.reducedCost fun i => outcome.duals.getD i 0 := by
  obtain ⟨t, last, hclosing, ⟨hfilled, hstocked⟩, hcatalogued⟩ := generate_closing
    ((preserved_stocked hsymm settings residual).and (preserved_catalogued p settings residual))
    (fun _ => ⟨⟨hmemory, hstocked.reset residual⟩, MasterProgram.catalogued_reset _ p residual⟩)
    hrun hending
  obtain ⟨rfl, rfl, rfl, -, ⟨order, hperm, horder⟩, hidle, rfl, hreported, -⟩ := hclosing
  have hcandidates : t.candidates.Perm (candidates t.problem t.residual) :=
    horder ▸ (List.mergeSort_perm _ _).trans hperm
  rw [hreported, Pricing.Terms.master_of_idle_scan hidle]
  refine Pricing.Terms.sortie_of_idle_scan (wellFormed_of_perm hcandidates) hsymm htriangle hslack
    htolerance hcolumns (horder ▸ Pricing.pairwise_byFallingDual t.duals order)
    (hfilled.sound hsymm) hcatalogued hstocked hidle s (fun i hi hserved => ?_) hload
  refine hcandidates.mem_iff.mpr (mem_candidates.mpr ⟨s.located i hi, ?_⟩)
  have := hload i
  omega

/-- When column generation converges on a master program that was used for this problem only, a
sortie for the residual demands costs what its passengers are worth at the duals reported, but for
the tolerance and for the sorties that an itinerary in the master program betters. The backend may
have reported any duals. -/
theorem sortie_of_converged (hsymm : p.Symmetric) (htriangle : p.Triangular)
    (hslack : 0 < settings.rangeSlack) (htolerance : 0 ≤ settings.tolerance)
    (hcolumns : 1 ≤ settings.columnsPerIteration) {master : MasterProgram L K}
    (hmaster : master.UsedOn p) {memory : TourMemory K} (hmemory : memory.FilledFrom p)
    {outcome : Outcome K} {final : SolverState L K}
    (hrun : generate p settings residual ⟨master, memory⟩ = (.ok outcome, final))
    (hending : outcome.ending = .converged) (s : p.Sortie)
    (hload : ∀ i, s.load i ≤ residual.getD i 0) :
    -settings.tolerance ≤ (s.reducedCost fun i => outcome.duals.getD i 0) ∨
      ∃ it ∈ final.master.itineraries,
        it.reducedCost outcome.duals ≤ s.reducedCost fun i => outcome.duals.getD i 0 :=
  sortie_of_stocked hsymm htriangle hslack htolerance hcolumns hmemory (hmaster.stocked hsymm)
    hrun hending s hload

end ColumnGeneration

end Exact

/-- Two platforms that are closer to each other than to the depot. Two seats are too few for all
who wait. -/
def Problem.oddCrew : Problem ℚ where
  platforms := [.depot, ⟨1, 0, 0, 1⟩, ⟨2, 0, 0, 2⟩]
  distances := ⟨3, #[0, 2, 2, 2, 0, 1, 2, 1, 0], by decide⟩
  capacity := 2
  range := 6
  sound := by decide +kernel

namespace OddCrew

open Problem (oddCrew)

/-! The first iteration adds a flight to both platforms. At the next solution, no flight is worth
more than its tour. -/

def settings : Settings ℚ := ⟨2, 1, 0, 1, 1⟩

/-- The optimal solutions, in their order. The last one is for the passenger whom the second
platform's own flight leaves. -/
def script : Lp.Scripted ℚ :=
  .start 2 [.solution 8 [1, 1] [4, 2], .solution 7 [0, 1 / 2, 1] [3, 2], .solution 4 [1, 0] [4, 0]]

def lp : Lp.Audited (Lp.Scripted ℚ) ℚ := .start script

def terms : Pricing.Terms ℚ := ⟨oddCrew, settings, [0, 1, 2], [0, 4, 2], [1, 2]⟩

def pair : Itinerary ℚ := terms.itinerary [1, 2] 5

def priced : MasterProgram (Lp.Audited (Lp.Scripted ℚ) ℚ) ℚ :=
  ((MasterProgram.start lp).reset oddCrew [0, 1, 2]).solve.2

def master : MasterProgram (Lp.Audited (Lp.Scripted ℚ) ℚ) ℚ := (priced.append pair).solve.2

theorem symmetric : oddCrew.Symmetric := by decide +kernel

theorem triangular : oddCrew.Triangular := by decide +kernel

theorem slack_pos : 0 < settings.rangeSlack := by decide +kernel

theorem optimum_first : oddCrew.optimum {1} = 4 := by
  rw [Problem.optimum, Tour.optimum_singleton]
  decide +kernel

theorem optimum_second : oddCrew.optimum {2} = 4 := by
  rw [Problem.optimum, Tour.optimum_singleton]
  decide +kernel

theorem optimum_pair : oddCrew.optimum {1, 2} = 5 := by
  rw [Problem.optimum, Tour.optimum_pair (by decide)]
  decide +kernel

theorem askable_first : oddCrew.Askable [1] := ⟨by decide, by decide⟩

theorem askable_pair : oddCrew.Askable [1, 2] := ⟨by decide, by decide⟩

theorem pairs_terms : terms.Pairs .empty 1 2 [] pair := by
  rw [pair]
  apply Pricing.Terms.pairs_of_filledFrom
  case hsingle => exact optimum_first
  case hpair => exact optimum_pair
  case haskable => exact askable_pair
  case hmemory => exact .empty
  all_goals decide +kernel

theorem contains_pair : priced.contains pair = false :=
  (MasterProgram.catalogued_reset _ _ _).contains_eq_false (m := priced) (by decide +kernel)

/-- The terms of the second scan. -/
def closing : Pricing.Terms ℚ := { terms with duals := [0, 3, 2] }

theorem idle_closing {state : SolverState (Lp.Audited (Lp.Scripted ℚ) ℚ) ℚ}
    (hmemory : state.memory.FilledFrom oddCrew) : (closing.scan state).added = 0 := by
  refine Pricing.Terms.idle_of_dear ⟨by decide, by decide, by decide⟩ symmetric slack_pos
    (hmemory.sound symmetric) fun stops hne hstops _ => ?_
  have hmem : stops ∈ [[], [1], [2], [1, 2]] := List.mem_sublists.mpr hstops
  obtain rfl | rfl | rfl | rfl : stops = [] ∨ stops = [1] ∨ stops = [2] ∨ stops = [1, 2] := by
    simpa using hmem
  · exact absurd rfl hne
  · show closing.improves (closing.itinerary [1] (oddCrew.optimum {1})) = false
    rw [optimum_first]
    decide +kernel
  · show closing.improves (closing.itinerary [2] (oddCrew.optimum {2})) = false
    rw [optimum_second]
    decide +kernel
  · show closing.improves (closing.itinerary [1, 2] (oddCrew.optimum {1, 2})) = false
    rw [optimum_pair]
    decide +kernel

theorem converges : ∃ memory,
    ColumnGeneration.generate oddCrew settings [0, 1, 2] ⟨.start lp, .empty⟩ =
      (.ok ⟨.converged, 2, master.objective, master.flightsAbove 0, master.duals, 1⟩,
        ⟨master, memory⟩) := by
  have hbegins : ColumnGeneration.BeginsOn terms ⟨.start lp, .empty⟩ priced :=
    ⟨by decide, rfl, by decide +kernel, rfl, rfl⟩
  exact hbegins.generate_pair_idle rfl pairs_terms contains_pair rfl (by decide)
    (by decide +kernel) (idle_closing (.ask _ (.ask _ .empty askable_first) askable_pair))

/-- A flight to both platforms with a passenger for each. -/
def sortie : oddCrew.Sortie where
  platforms := {1, 2}
  load i := if i = 1 ∨ i = 2 then 1 else 0
  located := by decide
  within_range := by
    rw [optimum_pair]
    decide +kernel
  supported i hi := if_neg (by simpa using hi)
  seated := by decide

theorem load_sortie_le (i : ℕ) : sortie.load i ≤ [0, 1, 2].getD i 0 := by
  by_cases h : i = 1 ∨ i = 2
  · rcases h with rfl | rfl <;> decide
  · rw [show sortie.load i = 0 from if_neg h]
    exact Nat.zero_le _

theorem sortie_of_converged_oddCrew : ∃ outcome final,
    ColumnGeneration.generate oddCrew settings [0, 1, 2] ⟨.start lp, .empty⟩ =
        (.ok outcome, final) ∧
      outcome.columnsAdded = 1 ∧
      (-settings.tolerance ≤ (sortie.reducedCost fun i => outcome.duals.getD i 0) ∨
        ∃ it ∈ final.master.itineraries,
          it.reducedCost outcome.duals ≤ sortie.reducedCost fun i => outcome.duals.getD i 0) := by
  obtain ⟨memory, hrun⟩ := converges
  exact ⟨_, _, hrun, rfl, ColumnGeneration.sortie_of_converged symmetric triangular slack_pos
    (le_refl 0) (le_refl 1) (.start lp) .empty hrun rfl sortie load_sortie_le⟩

end OddCrew

/-! ### The bound -/

section Bound

variable {K L : Type} [Field K] [LinearOrder K] [FloorRing K] [IsStrictOrderedRing K]
  [Lp.Backend L K] {p : Problem K}

/-- A plan of whole flights that serves all demands of a problem exactly. -/
structure Problem.IntegerPlan (p : Problem K) where
  count : ℕ
  sortie : Fin count → p.Sortie
  frequency : Fin count → ℕ
  frequency_pos : ∀ k, 1 ≤ frequency k
  covers : ∀ i ≤ p.platformCount, ∑ k, frequency k * (sortie k).load i = p.demands.getD i 0

namespace Problem.IntegerPlan

/-- The distance flown when every sortie flies its shortest tour. -/
def cost (plan : p.IntegerPlan) : K :=
  ∑ k, (plan.frequency k : K) * p.optimum (plan.sortie k).platforms

/-- The number of flights. -/
def flights (plan : p.IntegerPlan) : ℕ := ∑ k, plan.frequency k

omit [IsStrictOrderedRing K] in
theorem load_le_demand (plan : p.IntegerPlan) (k : Fin plan.count) (i : ℕ) :
    (plan.sortie k).load i ≤ p.demands.getD i 0 := by
  by_cases hi : i ≤ p.platformCount
  · calc (plan.sortie k).load i
        ≤ plan.frequency k * (plan.sortie k).load i :=
          Nat.le_mul_of_pos_left _ (plan.frequency_pos k)
      _ ≤ ∑ k, plan.frequency k * (plan.sortie k).load i :=
          Finset.single_le_sum (f := fun k => plan.frequency k * (plan.sortie k).load i)
            (fun _ _ => Nat.zero_le _) (Finset.mem_univ k)
      _ = p.demands.getD i 0 := plan.covers i hi
  · rw [(plan.sortie k).supported i fun h => hi ((plan.sortie k).located i h).2]
    exact Nat.zero_le _

omit [IsStrictOrderedRing K] in
theorem sum_worth (plan : p.IntegerPlan) (y : ℕ → K) :
    ∑ k, (plan.frequency k : K) *
        ∑ i ∈ (plan.sortie k).platforms, ((plan.sortie k).load i : K) * y i =
      ∑ i ∈ Finset.range (p.platformCount + 1), (p.demands.getD i 0 : K) * y i := by
  have hwide (k : Fin plan.count) :
      ∑ i ∈ (plan.sortie k).platforms, ((plan.sortie k).load i : K) * y i =
        ∑ i ∈ Finset.range (p.platformCount + 1), ((plan.sortie k).load i : K) * y i := by
    refine Finset.sum_subset (fun i hi => ?_) fun i _ hi => ?_
    · exact Finset.mem_range.mpr (Nat.lt_succ_of_le ((plan.sortie k).located i hi).2)
    · rw [(plan.sortie k).supported i hi, Nat.cast_zero, zero_mul]
  simp only [hwide, Finset.mul_sum]
  rw [Finset.sum_comm]
  refine Finset.sum_congr rfl fun i hi => ?_
  rw [← plan.covers i (Nat.le_of_lt_succ (Finset.mem_range.mp hi)), Nat.cast_sum, Finset.sum_mul]
  refine Finset.sum_congr rfl fun k _ => ?_
  push_cast
  ring

/-- Weak duality: where no sortie of a plan costs less than its passengers are worth, but for a
tolerance, neither does the plan. -/
theorem worth_le_cost (plan : p.IntegerPlan) {y : ℕ → K} {tolerance : K}
    (h : ∀ k, -tolerance ≤ (plan.sortie k).reducedCost y) :
    ∑ i ∈ Finset.range (p.platformCount + 1), (p.demands.getD i 0 : K) * y i -
      tolerance * plan.flights ≤ plan.cost := by
  have hsortie (k : Fin plan.count) :
      (plan.frequency k : K) * ∑ i ∈ (plan.sortie k).platforms, ((plan.sortie k).load i : K) * y i -
        tolerance * plan.frequency k ≤
      (plan.frequency k : K) * p.optimum (plan.sortie k).platforms := by
    have hfrequency : (0 : K) ≤ plan.frequency k := Nat.cast_nonneg _
    have := mul_le_mul_of_nonneg_left (h k) hfrequency
    rw [Problem.Sortie.reducedCost] at this
    linarith
  have := Finset.sum_le_sum fun k (_ : k ∈ Finset.univ) => hsortie k
  rwa [Finset.sum_sub_distrib, plan.sum_worth, ← Finset.mul_sum, ← Nat.cast_sum] at this

end Problem.IntegerPlan

/-- A relaxation that has converged to dual values which are feasible for its columns, within the
tolerance, and worth its objective is a lower bound: no plan of whole flights costs less, but for
the tolerance for each flight. -/
theorem Planner.objective_le_cost {planner : Planner K} (hplanner : planner.Reached)
    (hsymm : planner.problem.Symmetric) (htriangle : planner.problem.Triangular)
    (hslack : 0 < planner.settings.rangeSlack) (htolerance : 0 ≤ planner.settings.tolerance)
    (hcolumns : 1 ≤ planner.settings.columnsPerIteration) {lp : L} {relaxed : RelaxedPlan K}
    (hrelaxed : (planner.relaxedPlan lp).1 = .ok relaxed)
    (hconverged : relaxed.ending = .converged)
    (hfeasible : ∀ it ∈ relaxed.columns, -planner.settings.tolerance ≤
      it.column.reducedCost planner.problem.platformCount fun row => relaxed.duals.getD (row + 1) 0)
    (hobjective : relaxed.objective = ∑ i ∈ Finset.range (planner.problem.platformCount + 1),
      (planner.problem.demands.getD i 0 : K) * relaxed.duals.getD i 0)
    (plan : planner.problem.IntegerPlan) :
    relaxed.objective - planner.settings.tolerance * plan.flights ≤ plan.cost := by
  obtain ⟨outcome, final, hrun, rfl⟩ := relaxedPlan_eq_ok.mp hrelaxed
  have hseated : ∀ it ∈ final.master.itineraries, it.Seated planner.problem :=
    ColumnGeneration.generate_seated planner.problem.demands_length
      (by simp [solver, MasterProgram.start]) hrun
  have hdepot := (ColumnGeneration.report_of_generate hrun).2
  rw [hobjective]
  refine plan.worth_le_cost fun k => ?_
  rcases ColumnGeneration.sortie_of_stocked hsymm htriangle hslack htolerance hcolumns
    hplanner.filledFrom (MasterProgram.stocked_start planner.problem lp) hrun hconverged
    (plan.sortie k) (plan.load_le_demand k) with hcheap | ⟨it, hit, hcheaper⟩
  · exact hcheap
  · have := hfeasible it hit
    rw [Itinerary.reducedCost_column (hseated it hit).length hdepot] at this
    exact this.trans hcheaper

end Bound

namespace OddCrew

open Problem (oddCrew)

/-- A flight to the second platform with one passenger. -/
def rest : oddCrew.Sortie where
  platforms := {2}
  load i := if i = 2 then 1 else 0
  located := by decide
  within_range := by
    rw [optimum_second]
    decide +kernel
  supported i hi := if_neg (by simpa using hi)
  seated := by decide

def plan : oddCrew.IntegerPlan where
  count := 2
  sortie k := if k = 0 then sortie else rest
  frequency _ := 1
  frequency_pos _ := le_refl 1
  covers := by decide

theorem objective_le_cost_oddCrew : ∃ relaxed,
    ((Planner.start oddCrew settings).relaxedPlan lp).1 = .ok relaxed ∧
      relaxed.ending = .converged ∧ pair ∈ relaxed.columns ∧ relaxed.objective = 7 ∧
      relaxed.objective - settings.tolerance * plan.flights ≤ plan.cost := by
  obtain ⟨memory, hrun⟩ := converges
  have hrelaxed : ((Planner.start oddCrew settings).relaxedPlan lp).1 = .ok _ :=
    Planner.relaxedPlan_eq_ok.mpr ⟨_, _, hrun, rfl⟩
  have hfeasible : ∀ it ∈ master.itineraries, -settings.tolerance ≤
      it.column.reducedCost oddCrew.platformCount fun row => master.duals.getD (row + 1) 0 := by
    decide +kernel
  have hobjective : master.objective = ∑ i ∈ Finset.range (oddCrew.platformCount + 1),
      (oddCrew.demands.getD i 0 : ℚ) * master.duals.getD i 0 := by
    decide +kernel
  exact ⟨_, hrelaxed, rfl, List.mem_append_right _ (List.mem_singleton_self _), rfl,
    Planner.objective_le_cost (.start oddCrew settings) symmetric triangular slack_pos (le_refl 0)
      (le_refl 1) hrelaxed rfl hfeasible hobjective plan⟩

end OddCrew

end OffshoreFlights
