import OffshoreFlights.Proofs.Lp.Solved

/-! What a store answers of its program when it asks no solver. That zero is a solution, and that
the cost has no lower bound, is said of programs of which it is true. That the rows cannot be met is
said of any program of which some row but no column stays; it is wrong exactly when all right-hand
sides are zero. -/

namespace OffshoreFlights.Lp

/-- A solver with the number of programs that it has been given. -/
structure Metered (T : Type) where
  solver : T
  calls : ℕ

instance {T α : Type} [Solver T α] : Solver (Metered T) α where
  solve t P :=
    let (answer, solver) := Solver.solve t.solver P
    (answer, ⟨solver, t.calls + 1⟩)

theorem Metered.calls_of_solve {T α : Type} [Solver T α] {meter meter' : Metered T}
    {P : Program α} {answer : Except Failure (Solution α)}
    (h : Solver.solve meter P = (answer, meter')) : meter'.calls = meter.calls + 1 :=
  congrArg (fun result => result.2.calls) h.symm

namespace Store

variable {T α : Type} [Scalar α] [Solver T α] {s : Store (Metered T) α}

/-- A store that asks no solver goes by the verdict on its program. -/
theorem solve_of_uncalled (hrows : s.program.rowsExist = true)
    (huncalled : s.solve.2.solver.calls = s.solver.calls) :
    ∃ verdict, s.program.verdict? = some verdict ∧ s.solve.1 = verdict.mapError .lp := by
  generalize hstore : s.solve.2 = s' at huncalled
  generalize hanswer : s.solve.1 = answer
  cases outcome_of_solve (Prod.ext hanswer hstore) with
  | fault hmissing => exact absurd hrows hmissing
  | verdict hverdict hverdictAnswer => exact ⟨_, hverdict, hverdictAnswer⟩
  | failure _ hsolve =>
    have hcalls := Metered.calls_of_solve hsolve
    exact absurd (hcalls.symm.trans huncalled) (Nat.succ_ne_self _)
  | solution _ hsolve =>
    have hcalls := Metered.calls_of_solve hsolve
    exact absurd (hcalls.symm.trans huncalled) (Nat.succ_ne_self _)

end Store

namespace Program

variable {K : Type} [Field K] {P : Program K} {x : ℕ → K}

@[simp] theorem objective_zero : P.objective 0 = 0 := by
  simp [objective]

variable [LinearOrder K]

/-- What an answer says of a program: that nothing costs less than zero, that the cost has no lower
bound, or that the rows cannot be met. A reason of any other kind says nothing that could be told
without a solver. -/
def Warrants (P : Program K) : Except (Error K) Unit → Prop
  | .ok () => P.IsFeasible 0 ∧ ∀ x, P.IsFeasible x → P.objective 0 ≤ P.objective x
  | .error (.lp (.freeColumn _)) => P.Feasible ∧ ¬P.BoundedBelow
  | .error (.lp .noCover) => ¬P.Feasible
  | .error _ => False

theorem isFeasible_zero_iff : P.IsFeasible 0 ↔ ∀ b ∈ P.rhs, b = 0 := by
  constructor
  · intro h b hb
    obtain ⟨row, hrow, rfl⟩ := List.mem_iff_getElem.mp hb
    have hmeets := h.meets row hrow
    simp only [Pi.zero_apply, mul_zero, Finset.sum_const_zero] at hmeets
    rw [hmeets, List.getD_eq_getElem _ _ hrow]
  · intro h
    refine ⟨fun _ _ => le_rfl, fun row hrow => ?_⟩
    simp only [Pi.zero_apply, mul_zero, Finset.sum_const_zero]
    rw [List.getD_eq_getElem _ _ hrow, h _ (List.getElem_mem hrow)]

variable [FloorRing K] [IsStrictOrderedRing K]

/-- Where no row stays, values are only asked to be nonnegative, and zero in the columns left
out. -/
theorem isFeasible_iff_of_active_nil (hrows : P.active = []) : P.IsFeasible x ↔
    ∀ j < P.columns.length, 0 ≤ x j ∧ (j ∉ P.keptIndices → x j = 0) := by
  have hnone : P.reduced.rhs.length = 0 := by rw [length_rhs_reduced, hrows, List.length_nil]
  rw [isFeasible_iff_reduced]
  constructor
  · rintro ⟨hzero, hx⟩ j hj
    refine ⟨?_, hzero j hj⟩
    by_cases hkept : j ∈ P.keptIndices
    · obtain ⟨k, hk, rfl⟩ := List.mem_iff_getElem.mp hkept
      rw [← List.getD_eq_getElem _ 0 hk]
      exact hx.nonneg k (by rwa [length_reduced])
    · exact (hzero j hj hkept).ge
  · intro h
    refine ⟨fun j hj => (h j hj).2, fun k hk => ?_, fun row hrow => ?_⟩
    · obtain ⟨c, hget, -⟩ := exists_getElem?_reduced hk
      exact (h _ (List.getElem?_eq_some_iff.mp hget).1).1
    · omega

theorem objective_nonneg_of_active_nil (hrows : P.active = [])
    (hcost : ∀ j ∈ P.keptIndices, ∀ c, P.columns[j]? = some c → 0 ≤ c.cost)
    (hx : P.IsFeasible x) : 0 ≤ P.objective x := by
  refine Finset.sum_nonneg fun j hj => ?_
  have hj := Finset.mem_range.mp hj
  obtain ⟨hnonneg, hzero⟩ := (isFeasible_iff_of_active_nil hrows).mp hx j hj
  by_cases hkept : j ∈ P.keptIndices
  · have hget : P.columns[j]? = some P.columns[j] := List.getElem?_eq_getElem hj
    rw [cost_of_getElem? hget]
    exact mul_nonneg (hcost j hkept _ hget) hnonneg
  · rw [hzero hkept, mul_zero]

/-- Where no row stays, a column that does can take any value, and with it the cost. -/
theorem not_boundedBelow_of_active_nil (hrows : P.active = []) {j : ℕ} (hkept : j ∈ P.keptIndices)
    {c : Column K} (hget : P.columns[j]? = some c) (hcost : c.cost < 0) : ¬P.BoundedBelow := by
  rintro ⟨least, hleast⟩
  have hlt := lt_of_mem_keptIndices hkept
  set amount : K := (|least| + 1) / -c.cost
  have hamount : c.cost * amount = -(|least| + 1) := by
    have hne : -c.cost ≠ 0 := (neg_pos.mpr hcost).ne'
    calc c.cost * amount = -(-c.cost * amount) := by ring
      _ = -(|least| + 1) := by rw [mul_div_cancel₀ _ hne]
  have hnonneg : 0 ≤ amount :=
    div_nonneg (add_nonneg (abs_nonneg least) zero_le_one) (neg_pos.mpr hcost).le
  set ray : ℕ → K := fun i => if i = j then amount else 0
  have hfeasible : P.IsFeasible ray := by
    refine (isFeasible_iff_of_active_nil hrows).mpr fun i _ => ⟨?_, fun hi => ?_⟩
    · show 0 ≤ if i = j then amount else 0
      split
      · exact hnonneg
      · exact le_rfl
    · exact if_neg fun h : i = j => hi (h ▸ hkept)
  have hobjective : P.objective ray = c.cost * amount := by
    simp only [objective, ray, mul_ite, mul_zero, Finset.sum_ite_eq']
    rw [if_pos (Finset.mem_range.mpr hlt), cost_of_getElem? hget]
  have := hleast _ hfeasible
  rw [hobjective, hamount] at this
  linarith [neg_abs_le least]

theorem IsFeasible.eq_zero_of_keptIndices_nil (hcolumns : P.keptIndices = [])
    (hx : P.IsFeasible x) {j : ℕ} (hj : j < P.columns.length) : x j = 0 :=
  hx.eq_zero_of_notMem hj (by simp [hcolumns])

/-- Where no column stays, only zero could meet the rows. -/
theorem feasible_iff_of_keptIndices_nil (hcolumns : P.keptIndices = []) :
    P.Feasible ↔ ∀ b ∈ P.rhs, b = 0 := by
  rw [← isFeasible_zero_iff]
  constructor
  · rintro ⟨x, hx⟩
    exact hx.congr fun j hj => hx.eq_zero_of_keptIndices_nil hcolumns hj
  · exact fun h => ⟨0, h⟩

theorem Rests.warrants_iff {verdict : Except Failure Unit} (h : P.Rests verdict) :
    P.Warrants (verdict.mapError .lp) ↔
      ¬(verdict.mapError .lp = .error (.lp .noCover : Error K) ∧ ∀ b ∈ P.rhs, b = 0) := by
  have hzero : P.active = [] → P.IsFeasible 0 := fun hrows =>
    (isFeasible_iff_of_active_nil hrows).mpr fun _ _ => ⟨le_rfl, fun _ => rfl⟩
  cases h with
  | ok hrows hcost =>
    refine iff_of_true ⟨hzero hrows, fun x hx => ?_⟩ (by rintro ⟨h, -⟩; cases h)
    rw [objective_zero]
    exact objective_nonneg_of_active_nil hrows
      (fun j hj c hget => not_lt.mp (hcost j hj c hget)) hx
  | freeColumn hrows hkept hget hcost =>
    exact iff_of_true ⟨⟨0, hzero hrows⟩, not_boundedBelow_of_active_nil hrows hkept hget hcost⟩
      (by rintro ⟨h, -⟩; cases h)
  | noCover _ hcolumns =>
    show ¬P.Feasible ↔ ¬(_ ∧ _)
    rw [feasible_iff_of_keptIndices_nil hcolumns]
    exact not_congr (and_iff_right rfl).symm

end Program

namespace Store

variable {K T : Type} [Field K] [LinearOrder K] [FloorRing K] [IsStrictOrderedRing K] [Solver T K]

/-- What a store answers without a solver is true of its program, with one exception: a program
whose right-hand sides are all zero, and which zero alone solves, may be called one that nothing
solves. -/
theorem warrants_of_uncalled (s : Store (Metered T) K)
    (hrows : ∀ c ∈ s.program.columns, ∀ entry ∈ c.entries, entry.1 < s.program.rhs.length)
    (huncalled : s.solve.2.solver.calls = s.solver.calls) :
    (s.program.Warrants s.solve.1 ↔
      ¬(s.solve.1 = .error (.lp .noCover) ∧ ∀ b ∈ s.program.rhs, b = 0)) ∧
    (s.solve.1 = .error (.lp .noCover) →
      ∀ x, s.program.IsFeasible x → ∀ j < s.program.columns.length, x j = 0) := by
  obtain ⟨verdict, hverdict, hanswer⟩ :=
    solve_of_uncalled (Program.rowsExist_of_lt hrows) huncalled
  have hrests := Program.rests_of_verdict? hverdict
  rw [hanswer]
  refine ⟨hrests.warrants_iff, fun hnoCover x hx j hj => ?_⟩
  cases hrests with
  | ok => cases hnoCover
  | freeColumn => cases hnoCover
  | noCover _ hcolumns => exact hx.eq_zero_of_keptIndices_nil hcolumns hj

end Store

/-! Two programs of which no column stays, and yet some row does: in the first it has a right-hand
side other than zero, in the second a negative coefficient. -/

namespace Uncovered

def store (rhs : List ℚ) (second : ℚ) : Store (Metered RationalSimplex) ℚ :=
  ⟨⟨⟨⟩, 0⟩, ⟨rhs, [⟨1, [(0, 1), (1, second)]⟩]⟩, [], [], 0⟩

theorem warrants_of_uncalled_covered : (store [0, 2] 1).solve.1 = .error (.lp .noCover) ∧
    ¬(store [0, 2] 1).program.Feasible := by
  have hanswer : (store [0, 2] 1).solve.1 = .error (.lp .noCover) := by decide +kernel
  have hwarrants := (Store.warrants_of_uncalled (store [0, 2] 1) (by decide) (by decide +kernel)).1
  rw [hanswer] at hwarrants
  exact ⟨hanswer, hwarrants.mpr fun h => absurd (h.2 2 (by decide)) (by decide)⟩

/-- The rows of this program are met by zero, and the store says that they cannot be met. -/
theorem noCover_of_feasible :
    (∀ c ∈ (store [0, 0] (-1)).program.columns, (c.entries.map Prod.fst).Nodup ∧
      ∀ entry ∈ c.entries, entry.1 < (store [0, 0] (-1)).program.rhs.length) ∧
    (store [0, 0] (-1)).solve.2.solver.calls = (store [0, 0] (-1)).solver.calls ∧
    (store [0, 0] (-1)).solve.1 = .error (.lp .noCover) ∧
    (store [0, 0] (-1)).program.IsFeasible 0 ∧
    ¬(store [0, 0] (-1)).program.Warrants (store [0, 0] (-1)).solve.1 := by
  have hanswer : (store [0, 0] (-1)).solve.1 = .error (.lp .noCover) := by decide +kernel
  have hzero : (store [0, 0] (-1)).program.IsFeasible 0 :=
    Program.isFeasible_zero_iff.mpr (by decide)
  refine ⟨by decide, by decide +kernel, hanswer, hzero, ?_⟩
  rw [hanswer]
  exact fun h => h ⟨0, hzero⟩

end Uncovered

end OffshoreFlights.Lp
