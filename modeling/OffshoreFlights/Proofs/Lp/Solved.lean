import Mathlib.Data.Rat.Floor
import OffshoreFlights.Lp.Simplex
import OffshoreFlights.Proofs.Lp.Reduction

/-! What a store reports once it has solved its program. -/

namespace OffshoreFlights.Lp

namespace Store

section Steps

variable {T α : Type} [Scalar α] [Solver T α] {s s' : Store T α}

theorem solve_eq_ok {solution : Solution α} {solver : T} (hrows : s.program.rowsExist = true)
    (hverdict : s.program.verdict? = none)
    (hsolve : Solver.solve s.solver s.program.reduced = (.ok solution, solver)) :
    s.solve = (.ok (), { s.adopt solution with solver }) := by
  rw [solve, if_pos hrows, hverdict, hsolve]

/-- The ways in which a request to solve ends: a row does not exist, the program is settled without
the solver, or the solver finds no solution, or it finds one. -/
inductive Outcome (s : Store T α) : Except (Error α) Unit → Store T α → Prop
  | fault (hrows : ¬s.program.rowsExist = true) : s.Outcome (.error (.fault .outOfRange)) s
  | verdict {answer : Except (Error α) Unit} {verdict : Except Failure Unit}
    (hverdict : s.program.verdict? = some verdict) (hanswer : answer = verdict.mapError .lp) :
    s.Outcome answer s.cleared
  | failure {failure : Failure} {solver : T} (hverdict : s.program.verdict? = none)
    (hsolve : Solver.solve s.solver s.program.reduced = (.error failure, solver)) :
    s.Outcome (.error (.lp failure)) { s.cleared with solver }
  | solution {solution : Solution α} {solver : T} (hverdict : s.program.verdict? = none)
    (hsolve : Solver.solve s.solver s.program.reduced = (.ok solution, solver)) :
    s.Outcome (.ok ()) { s.adopt solution with solver }

theorem solve_outcome (s : Store T α) : s.Outcome s.solve.1 s.solve.2 := by
  unfold solve
  split
  next =>
    split
    next verdict hverdict => exact .verdict hverdict rfl
    next hverdict =>
      split
      next failure solver hsolve => exact .failure hverdict hsolve
      next solution solver hsolve => exact .solution hverdict hsolve
  next hrows => exact .fault hrows

theorem outcome_of_solve {answer : Except (Error α) Unit} (h : s.solve = (answer, s')) :
    s.Outcome answer s' := by
  have houtcome := s.solve_outcome
  rwa [h] at houtcome

theorem Outcome.program {answer : Except (Error α) Unit} (h : s.Outcome answer s') :
    s'.program = s.program := by
  cases h <;> rfl

/-- The two ways to a solution: there is nothing to choose, or the solver finds one. -/
theorem solve_cases (h : s.solve = (.ok (), s')) :
    (s.program.verdict? = some (.ok ()) ∧ s' = s.cleared) ∨
      ∃ solution solver, s.program.verdict? = none ∧
        Solver.solve s.solver s.program.reduced = (.ok solution, solver) ∧
        s' = { s.adopt solution with solver } := by
  cases outcome_of_solve h with
  | @verdict _ verdict hverdict hanswer =>
    cases verdict with
    | error e => cases hanswer
    | ok => exact .inl ⟨hverdict, rfl⟩
  | solution hverdict hsolve => exact .inr ⟨_, _, hverdict, hsolve, rfl⟩

omit [Solver T α] in
theorem dualAt_cleared (s : Store T α) (row : ℕ) : s.cleared.dualAt row = 0 := by
  show (List.replicate s.program.rhs.length (0 : α)).getD row 0 = 0
  rw [List.getD_eq_getElem?_getD, List.getElem?_replicate]
  split <;> rfl

end Steps

variable {K T : Type} [Field K] [LinearOrder K] [FloorRing K]

/-- The last solution is optimal for the program held, and worth its objective; it is zero in what
the reduction leaves out, and no column that stays betters its duals. -/
structure Solved (s : Store T K) : Prop where
  feasible : s.program.IsFeasible s.primalAt
  least : ∀ x, s.program.IsFeasible x → s.program.objective s.primalAt ≤ s.program.objective x
  cost : s.objective = s.program.objective s.primalAt
  worth : s.objective = s.program.worth s.dualAt
  leftOut : ∀ row, row ∉ s.program.active → s.dualAt row = 0
  dropped : ∀ j, j ∉ s.program.keptIndices → s.primalAt j = 0
  dual : ∀ j ∈ s.program.keptIndices, ∀ c, s.program.columns[j]? = some c →
    0 ≤ c.reducedCost s.program.rhs.length s.dualAt

theorem dualAt_of_notMem_active [Solver T K] {s s' : Store T K} (h : s.solve = (.ok (), s'))
    {row : ℕ} (hrow : row ∉ s.program.active) : s'.dualAt row = 0 := by
  rcases solve_cases h with ⟨-, rfl⟩ | ⟨solution, solver, -, -, rfl⟩
  · exact dualAt_cleared s row
  · exact Program.getD_spreadDuals_of_notMem solution.duals hrow

/-- No column that stays betters the duals reported, when the solver's are so for the reduced
program. -/
theorem reducedCost_nonneg_of_solve [Solver T K] {s s' : Store T K} (h : s.solve = (.ok (), s'))
    (hdual : ∀ solution solver, Solver.solve s.solver s.program.reduced = (.ok solution, solver) →
      ∀ c ∈ s.program.reduced.columns,
        0 ≤ c.reducedCost s.program.reduced.rhs.length fun i => solution.duals.getD i 0)
    {j : ℕ} (hj : j ∈ s.program.keptIndices) {c : Column K}
    (hget : s.program.columns[j]? = some c) :
    0 ≤ c.reducedCost s.program.rhs.length s'.dualAt := by
  rcases solve_cases h with ⟨hverdict, rfl⟩ | ⟨solution, solver, -, hsolve, rfl⟩
  · unfold Column.reducedCost
    simp only [dualAt_cleared, mul_zero, Finset.sum_const_zero, sub_zero]
    exact Program.cost_nonneg_of_verdict? hverdict hj hget
  · exact (hdual solution solver hsolve _ (Program.restrict_mem_reduced hj hget)).trans_eq
      (Program.reducedCost_spreadDuals c solution.duals).symm

variable [IsStrictOrderedRing K]

/-- An optimal solution of the reduced program, adopted, is one of the whole program. -/
theorem solved_adopt {s : Store T K} {solution : Solution K} {solver : T}
    (h : s.program.reduced.OptimalPair (fun k => solution.primal.getD k 0)
      fun i => solution.duals.getD i 0) : Solved { s.adopt solution with solver } := by
  set P := s.program
  set x : ℕ → K := fun j => (P.spreadPrimal solution.primal).getD j 0
  set y : ℕ → K := fun row => (P.spreadDuals solution.duals).getD row 0
  have hdropped : ∀ j, j ∉ P.keptIndices → x j = 0 :=
    fun j hj => Program.getD_spreadPrimal_of_notMem _ hj
  have hkept : ∀ k < P.reduced.columns.length,
      solution.primal.getD k 0 = x (P.keptIndices.getD k 0) := fun k hk =>
    (Program.getD_spreadPrimal (by rwa [Program.length_reduced] at hk) (h.primal.nonneg k hk)).symm
  have hobjective : P.objective x = P.reduced.objective fun k => solution.primal.getD k 0 := by
    rw [Program.objective_reduced fun j _ => hdropped j]
    exact (Program.objective_congr hkept).symm
  have hcost : P.keptCost (P.spreadPrimal solution.primal) = P.objective x := by
    rw [Program.keptCost_eq, Program.objective_reduced fun j _ => hdropped j]
  refine ⟨?_, fun x' hx' => ?_, hcost, ?_, fun row hrow => ?_, hdropped, fun j hj c hget => ?_⟩
  · exact Program.isFeasible_iff_reduced.mpr ⟨fun j _ => hdropped j, h.primal.congr hkept⟩
  · obtain ⟨hzero, hreduced⟩ := Program.isFeasible_iff_reduced.mp hx'
    calc P.objective x
        = P.reduced.objective fun k => solution.primal.getD k 0 := hobjective
      _ ≤ P.reduced.objective fun k => x' (P.keptIndices.getD k 0) := h.least hreduced
      _ = P.objective x' := (Program.objective_reduced hzero).symm
  · calc P.keptCost (P.spreadPrimal solution.primal)
        = P.reduced.objective fun k => solution.primal.getD k 0 := hcost.trans hobjective
      _ = P.reduced.worth fun i => solution.duals.getD i 0 := h.worth
      _ = P.worth y := (Program.worth_spreadDuals _).symm
  · exact Program.getD_spreadDuals_of_notMem _ hrow
  · exact (h.dual _ (Program.restrict_mem_reduced hj hget)).trans_eq
      (Program.reducedCost_spreadDuals c solution.duals).symm

/-- The reduction loses no values that meet all rows, whatever the signs of the coefficients. Where
it leaves a program for the solver, an optimal pair for that gives an optimal solution of the whole
program, with its worth, and duals that no column which stays betters. -/
theorem solve_reduced [Solver T K] (s : Store T K)
    (hrows : ∀ c ∈ s.program.columns, ∀ entry ∈ c.entries, entry.1 < s.program.rhs.length) :
    (∀ x, s.program.IsFeasible x ↔
      (∀ j < s.program.columns.length, j ∉ s.program.keptIndices → x j = 0) ∧
        s.program.reduced.IsFeasible fun k => x (s.program.keptIndices.getD k 0)) ∧
    ∀ solution solver, s.program.verdict? = none →
      Solver.solve s.solver s.program.reduced = (.ok solution, solver) →
      s.program.reduced.OptimalPair (fun k => solution.primal.getD k 0)
        (fun i => solution.duals.getD i 0) →
      ∃ s', s.solve = (.ok (), s') ∧ s'.program = s.program ∧ s'.Solved := by
  refine ⟨fun x => Program.isFeasible_iff_reduced, fun solution solver hverdict hsolve h => ?_⟩
  exact ⟨_, solve_eq_ok (Program.rowsExist_of_lt hrows) hverdict hsolve, rfl, solved_adopt h⟩

end Store

/-- The simplex method on programs of rational numbers. -/
structure RationalSimplex where

instance : Solver RationalSimplex ℚ where
  solve t P := (Simplex.solve P, t)

/-! A program of which the first row and the first column are left out. The last row has the
right-hand side zero too, and stays because of a negative coefficient. -/

namespace Mixed

def program : Program ℚ where
  rhs := [0, 3, 0]
  columns := [⟨1, [(0, 1), (1, 1)]⟩, ⟨2, [(1, 1), (2, 1)]⟩, ⟨1, [(2, -1)]⟩, ⟨5, [(1, 1)]⟩]

def store : Store RationalSimplex ℚ := ⟨⟨⟩, program, [], [], 0⟩

def solution : Solution ℚ := ⟨[3, 3, 0], [3, -1]⟩

theorem simplex_reduced : Simplex.solve program.reduced = .ok solution := by
  have hanswer : (Simplex.solve program.reduced).toOption.map (fun s => (s.primal, s.duals)) =
      some (solution.primal, solution.duals) := by
    decide +kernel
  cases hsolve : Simplex.solve program.reduced with
  | error e =>
    rw [hsolve] at hanswer
    cases hanswer
  | ok found =>
    obtain ⟨primal, duals⟩ := found
    rw [hsolve] at hanswer
    cases hanswer
    rfl

/-- At the duals of the solution, the column left out costs less than it is worth. -/
theorem solve_reduced_mixed : (∃ s', store.solve = (.ok (), s') ∧ s'.Solved ∧
    s'.objective = 9 ∧ s'.primal = [0, 3, 3, 0] ∧ s'.duals = [0, 3, -1]) ∧
    Column.reducedCost ⟨1, [(0, 1), (1, 1)]⟩ 3 (fun row => [0, 3, -1].getD row 0) = (-2 : ℚ) := by
  obtain ⟨s', hs', -, hsolved⟩ := (Store.solve_reduced store (by decide)).2 solution ⟨⟩ rfl
    (Prod.ext simplex_reduced rfl) (by decide +kernel)
  refine ⟨⟨s', hs', hsolved, ?_⟩, by decide +kernel⟩
  obtain rfl : store.solve.2 = s' := congrArg Prod.snd hs'
  decide +kernel

end Mixed

end OffshoreFlights.Lp
