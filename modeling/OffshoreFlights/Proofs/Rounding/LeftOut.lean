import OffshoreFlights.Proofs.Itinerary.Column
import OffshoreFlights.Proofs.Lp.Lockstep
import OffshoreFlights.Proofs.Lp.Solved
import OffshoreFlights.Proofs.Number.Counted
import OffshoreFlights.Proofs.Rounding.Flyable

/-! What the reduction leaves out of the programs that relaxations and roundings solve: the rows of
the platforms where nobody waits, and the columns in front that fly there. All other columns are of
itineraries that can be flown, and these stop nowhere in vain. So the zeros that stand for the duals
of the rows left out make no column look better than it is. -/

namespace OffshoreFlights

section

variable {L S T α : Type} [Scalar α] {p : Problem α} {settings : Settings α} {residual : List ℕ}

/-! ### Columns -/

theorem Itinerary.row_lt_of_mem_entries {it : Itinerary α} (h : it.Seated p) {entry : ℕ × α}
    (hentry : entry ∈ it.column.entries) : entry.1 < p.platformCount := by
  have hrow := lt_length_of_servedAt_pos (mem_entries_column.mp hentry).1
  have hlength := h.length
  omega

/-! ### Master programs -/

/-- The reduction of a program leaves out the rows of the platforms where nobody waits and the
columns in front to them, and nothing else. It goes on to the solver unless nobody waits at all. -/
structure Lp.Program.LeavesOutServed (P : Lp.Program α) (platforms : ℕ) (residual : List ℕ) :
    Prop where
  rowsExist : P.rowsExist = true
  rows : P.leftOut = (List.range platforms).map fun row => decide (residual.getD (row + 1) 0 = 0)
  columns : ∀ j < P.columns.length,
    (j ∉ P.keptIndices ↔ j < platforms ∧ residual.getD (j + 1) 0 = 0)
  verdict : P.verdict? = if headcount residual = 0 then some (.ok ()) else none

namespace MasterProgram

variable [Lp.Backend L α] [Lp.KeepsProgram L] [Scalar.Counts α] {m : MasterProgram L α}

theorem Aligned.leftOut (h : m.Aligned p residual) : m.program.leftOut =
    (List.range p.platformCount).map fun row => decide (residual.getD (row + 1) 0 = 0) := by
  refine List.ext_getElem (by simp [Lp.Program.leftOut, h.rhs]) fun row hrow _ => ?_
  -- counts are not negative, so the right-hand side alone decides
  have hforces : ∀ b, m.program.forcesZero row b = (b == 0) := by
    intro b
    rw [Lp.Program.forcesZero, Bool.and_eq_left_iff_imp]
    intro _
    rw [h.inStep, List.all_eq_true]
    intro c hc
    obtain ⟨it, -, rfl⟩ := List.mem_map.mp hc
    refine List.all_eq_true.mpr fun entry hentry => ?_
    have hnonneg : ¬entry.2 < 0 := by
      rw [(Itinerary.mem_entries_column.mp hentry).2]
      exact Scalar.Counts.not_natCast_lt_zero _
    dsimp only
    rw [decide_eq_false hnonneg, Bool.and_false]
    rfl
  rw [Bool.eq_iff_iff]
  simp only [Lp.Program.leftOut, List.getElem_map, List.getElem_zipIdx, hforces, h.rhs,
    List.getElem_range, Scalar.Counts.natCast_beq_zero_iff, decide_eq_true_iff, Nat.zero_add]

theorem Aligned.blocks_iff (h : m.Aligned p residual) {it : Itinerary α} (hit : it.Seated p)
    {entry : ℕ × α} (hentry : entry ∈ it.column.entries) :
    Lp.Program.blocks m.program.leftOut entry = true ↔ residual.getD (entry.1 + 1) 0 = 0 := by
  obtain ⟨hserved, hcount⟩ := Itinerary.mem_entries_column.mp hentry
  have hrow := Itinerary.row_lt_of_mem_entries hit hentry
  have hpos : 0 < entry.2 := by
    rw [hcount]
    exact Scalar.Counts.natCast_pos hserved
  rw [Lp.Program.blocks, h.leftOut, decide_eq_true hpos, Bool.and_true,
    List.getD_eq_getElem _ _ (by simpa using hrow), List.getElem_map, List.getElem_range,
    decide_eq_true_iff]

/-- The column of an itinerary stays if it serves only platforms where somebody waits. -/
theorem Aligned.mem_keptIndices (h : m.Aligned p residual) {j : ℕ} {it : Itinerary α}
    (hget : m.itineraries[j]? = some it) (hit : it.Seated p) :
    j ∈ m.program.keptIndices ↔ ∀ i, 0 < it.servedAt i → 0 < residual.getD i 0 := by
  have hcolumn : m.program.columns[j]? = some it.column := by
    rw [h.inStep, List.getElem?_map, hget, Option.map_some]
  rw [Lp.Program.mem_keptIndices]
  constructor
  · rintro ⟨c, hc, hblocks⟩ i hserved
    obtain rfl := Option.some.inj (hcolumn.symm.trans hc)
    obtain ⟨row, rfl⟩ : ∃ row, i = row + 1 := by
      refine Nat.exists_eq_succ_of_ne_zero fun hdepot => ?_
      rw [hdepot, hit.depot] at hserved
      exact absurd hserved (by decide)
    have hentry : (row, (it.servedAt (row + 1) : α)) ∈ it.column.entries :=
      Itinerary.mem_entries_column.mpr ⟨hserved, rfl⟩
    have hopen := mt (h.blocks_iff hit hentry).mpr (Bool.not_eq_true _ ▸ hblocks _ hentry)
    exact Nat.pos_of_ne_zero hopen
  · intro hwaiting
    refine ⟨it.column, hcolumn, fun entry hentry => ?_⟩
    rw [← Bool.not_eq_true, h.blocks_iff hit hentry]
    exact (hwaiting _ (Itinerary.mem_entries_column.mp hentry).1).ne'

theorem Aligned.mem_active (h : m.Aligned p residual) {row : ℕ} :
    row ∈ m.program.active ↔ row < p.platformCount ∧ 0 < residual.getD (row + 1) 0 := by
  rw [Lp.Program.mem_active, h.rhs_length, h.leftOut]
  refine and_congr_right fun hrow => ?_
  rw [List.getD_eq_getElem _ _ (by simpa using hrow), List.getElem_map, List.getElem_range,
    decide_eq_false_iff_not, Nat.pos_iff_ne_zero]

variable (h : m.Aligned p residual) (hbased : m.Based p residual)
  (hlength : residual.length = p.platformCount + 1) (hdepot : residual.getD 0 0 = 0)

include h hbased hlength

theorem Aligned.notMem_keptIndices {j : ℕ} (hj : j < m.program.columns.length) :
    j ∉ m.program.keptIndices ↔ j < p.platformCount ∧ residual.getD (j + 1) 0 = 0 := by
  rw [h.inStep, List.length_map] at hj
  have hget := List.getElem?_eq_getElem hj
  have hit := (hbased.carries (List.getElem_mem hj)).1
  rw [h.mem_keptIndices hget hit]
  by_cases hfront : j < p.platformCount
  · have hown := Option.some.inj (hget.symm.trans (hbased.getElem?_basis hfront))
    have hserved : ∀ i, 0 < m.itineraries[j].servedAt i ↔ i = j + 1 := fun i => by
      rw [hown]
      exact servedAt_basisItinerary_pos p residual hfront
    simp only [hserved, forall_eq, hfront, true_and, Nat.pos_iff_ne_zero, not_not]
  · simp only [hfront, false_and, iff_false, not_not]
    exact fun i hi => ((hbased.useful_of_le hget (Nat.le_of_not_lt hfront)).waiting hlength hi).2

omit hlength in
/-- Where nobody waits, no column stays. -/
theorem Aligned.keptIndices_eq_nil (hnobody : headcount residual = 0) :
    m.program.keptIndices = [] := by
  refine List.eq_nil_iff_forall_not_mem.mpr fun j hj => ?_
  have hlt := Lp.Program.lt_of_mem_keptIndices hj
  rw [h.inStep, List.length_map] at hlt
  obtain ⟨hit, hcarries⟩ := hbased.carries (List.getElem_mem hlt)
  obtain ⟨i, -, hserved⟩ := exists_getD_pos hit.length hit.depot hcarries
  have hwaiting := (h.mem_keptIndices (List.getElem?_eq_getElem hlt) hit).mp hj _ hserved
  have := getD_le_headcount residual (i + 1)
  omega

include hdepot

theorem Aligned.verdict? : m.program.verdict? =
    if headcount residual = 0 then some (.ok ()) else none := by
  unfold Lp.Program.verdict?
  by_cases hnobody : headcount residual = 0
  · have hactive : m.program.active = [] := by
      refine List.eq_nil_iff_forall_not_mem.mpr fun row hrow => ?_
      have := (h.mem_active.mp hrow).2
      have := getD_le_headcount residual (row + 1)
      omega
    rw [if_pos hnobody, if_pos hactive,
      List.map_eq_nil_iff.mp (h.keptIndices_eq_nil hbased hnobody)]
    rfl
  · obtain ⟨row, hrow, hwaiting⟩ := exists_getD_pos hlength hdepot (Nat.pos_of_ne_zero hnobody)
    have hactive : m.program.active ≠ [] := List.ne_nil_of_mem (h.mem_active.mpr ⟨hrow, hwaiting⟩)
    have hcolumn : row < m.program.columns.length := by
      rw [h.inStep, List.length_map]
      exact hrow.trans_le hbased.le_length
    have hkept : row ∈ m.program.keptIndices := by
      by_contra hdropped
      exact hwaiting.ne' ((h.notMem_keptIndices hbased hlength hcolumn).mp hdropped).2
    obtain ⟨pair, hpair, -⟩ := List.mem_map.mp hkept
    rw [if_neg hnobody, if_neg hactive, if_neg]
    rw [List.isEmpty_iff]
    exact List.ne_nil_of_mem hpair

theorem Aligned.leavesOutServed : m.program.LeavesOutServed p.platformCount residual where
  rowsExist := by
    refine Lp.Program.rowsExist_of_lt fun c hc entry hentry => ?_
    rw [h.inStep] at hc
    obtain ⟨it, hit, rfl⟩ := List.mem_map.mp hc
    rw [h.rhs_length]
    exact Itinerary.row_lt_of_mem_entries (hbased.carries hit).1 hentry
  rows := h.leftOut
  columns _ hj := h.notMem_keptIndices hbased hlength hj
  verdict := h.verdict? hbased hlength hdepot

end MasterProgram

end

/-! ### Dual values -/

section Exact

variable {T K : Type} [Field K] [LinearOrder K] [FloorRing K] [IsStrictOrderedRing K]
  [Lp.Solver T K] {p : Problem K} {residual : List ℕ}

/-- The duals of the last solution are zero in the rows left out, and no column betters them: no
itinerary of the master program is worth more than its tour. -/
structure MasterProgram.Unbettered (m : MasterProgram (Lp.Store T K) K) : Prop where
  leftOut : ∀ row, row ∉ m.program.active → Lp.Backend.dual m.lp row = 0
  columns : ∀ c ∈ m.program.columns,
    0 ≤ c.reducedCost m.program.rhs.length (Lp.Backend.dual m.lp)
  itineraries : ∀ it ∈ m.itineraries, 0 ≤ it.reducedCost m.duals

namespace MasterProgram

variable {m m' : MasterProgram (Lp.Store T K) K}

omit [IsStrictOrderedRing K] in
theorem eq_of_solve (hsolve : m.solve = (.ok (), m')) : m.lp.solve = (.ok (), m'.lp) ∧
    m'.program = m.program ∧ m'.itineraries = m.itineraries ∧ m'.basisSize = m.basisSize := by
  obtain rfl : m.solve.2 = m' := congrArg Prod.snd hsolve
  have hok : m.lp.solve.1 = .ok () := congrArg Prod.fst hsolve
  exact ⟨Prod.ext hok rfl, program_solve m, rfl, rfl⟩

omit [Lp.Solver T K] [IsStrictOrderedRing K] in
/-- A column in front to a platform whose row has the dual zero costs what its tour is long. -/
theorem reducedCost_basisItinerary {y : ℕ → K} {j : ℕ} (hj : j < p.platformCount) (hy : y j = 0)
    (rows : ℕ) : (basisItinerary p residual (j + 1)).column.reducedCost rows y =
      p.distance 0 (j + 1) + p.distance (j + 1) 0 := by
  unfold Lp.Column.reducedCost
  rw [Finset.sum_eq_zero, sub_zero]
  · rfl
  · intro row _
    rw [Itinerary.coefficient_column, servedAt_basisItinerary p residual hj]
    by_cases hrow : row = j
    · rw [hrow, hy, mul_zero]
    · rw [if_neg (by omega), Nat.cast_zero, zero_mul]

theorem Aligned.unbettered (h : m.Aligned p residual) (hbased : m.Based p residual)
    (hlength : residual.length = p.platformCount + 1)
    (hdual : ∀ solution solver,
      Lp.Solver.solve m.lp.solver m.program.reduced = (.ok solution, solver) →
        ∀ c ∈ m.program.reduced.columns,
          0 ≤ c.reducedCost m.program.reduced.rhs.length fun i => solution.duals.getD i 0)
    (hsolve : m.solve = (.ok (), m')) : m'.Unbettered := by
  obtain ⟨hlp, hprogram, hitineraries, hsize⟩ := eq_of_solve hsolve
  have hzero : ∀ row, row ∉ m.program.active → m'.lp.dualAt row = 0 :=
    fun row => Lp.Store.dualAt_of_notMem_active hlp
  have hcolumns : ∀ c ∈ m.program.columns,
      0 ≤ c.reducedCost m.program.rhs.length m'.lp.dualAt := by
    intro c hc
    obtain ⟨j, hj, rfl⟩ := List.mem_iff_getElem.mp hc
    have hget := List.getElem?_eq_getElem hj
    by_cases hkept : j ∈ m.program.keptIndices
    · exact Lp.Store.reducedCost_nonneg_of_solve hlp hdual hkept hget
    · obtain ⟨hfront, hnobody⟩ := (h.notMem_keptIndices hbased hlength hj).mp hkept
      have hown : m.program.columns[j] = (basisItinerary p residual (j + 1)).column := by
        rw [← Option.some_inj, ← hget, h.inStep, List.getElem?_map, hbased.getElem?_basis hfront,
          Option.map_some]
      have hrow : j ∉ m.program.active := fun hactive =>
        (h.mem_active.mp hactive).2.ne' hnobody
      rw [hown, reducedCost_basisItinerary hfront (hzero j hrow)]
      exact add_nonneg (p.zero_le_distance 0 _) (p.zero_le_distance _ 0)
  refine ⟨by rwa [hprogram], by rwa [hprogram], fun it hit => ?_⟩
  rw [hitineraries] at hit
  have hcolumn := hcolumns it.column (h.inStep ▸ List.mem_map_of_mem hit)
  have hduals : ∀ row < p.platformCount, m'.lp.dualAt row = m'.duals.getD (row + 1) 0 := by
    intro row hrow
    rw [← h.size, ← hsize] at hrow
    rw [duals, List.getD_cons_succ, List.getD_eq_getElem _ _ (by simpa using hrow),
      List.getElem_map, List.getElem_range]
    rfl
  rw [h.rhs_length] at hcolumn
  rw [← Itinerary.reducedCost_column (hbased.carries hit).1.length rfl]
  exact hcolumn.trans_eq (Lp.Column.reducedCost_congr hduals)

end MasterProgram

end Exact

/-! ### Runs -/

section Runs

variable {L T α : Type} [Scalar α] [Lp.Backend L α] {p : Problem α} {residual : List ℕ}

/-- Column generation that is about to solve its master program: for a relaxed plan over a backend
without columns, or in a round of a whole plan over one. -/
inductive Planner.Solving (planner : Planner α) (lp : L) : List ℕ → ColumnGeneration L α → Prop
  | relaxed {g : ColumnGeneration L α}
    (hdue : ColumnGeneration.Due planner.problem planner.settings planner.problem.demands
      (planner.solver lp) g) : Solving planner lp planner.problem.demands g
  | whole {S : Type} [FlightChooser S α] (chooser : S) {r : Rounding L S α}
    {g : ColumnGeneration L α}
    (hreached : Rounding.Reached planner.problem planner.settings
      (.start planner.problem (planner.solver lp) chooser) r)
    (hdue : ColumnGeneration.Due planner.problem planner.settings r.residual r.solver g) :
    Solving planner lp r.residual g

theorem Rounding.carried_aligned [Lp.KeepsProgram L] (p : Problem α) (settings : Settings α) :
    Carried p settings
      (fun _ (st : SolverState L α) => st.master.basisSize = p.platformCount ∧ st.master.InStep ∧
        st.master.program.rhs.length = p.platformCount)
      fun residual st => st.master.Aligned p residual where
  reset residual _ h := MasterProgram.aligned_reset h.1 h.2.1 h.2.2 residual
  preserved residual _ := by
    refine ⟨fun st h => h.solve, fun t stops scan scan' _ _ _ _ hvisit h => ?_⟩
    rcases hvisit.look.master_eq_or_add with hmaster | hmaster <;> rw [hmaster]
    · exact h
    · exact h.add _
  removeUnfit _ left _ h :=
    have haligned := h.removeUnfit left
    ⟨haligned.size, haligned.inStep, haligned.rhs_length⟩

namespace Planner

variable {planner : Planner α} {lp : L} {g : ColumnGeneration L α}

theorem Solving.within {between within : List ℕ → SolverState L α → Prop}
    (h : planner.Solving lp residual g)
    (hcarried : Rounding.Carried planner.problem planner.settings between within)
    (hstart : between planner.problem.demands (planner.solver lp)) :
    within residual g.state ∧ residual.length = planner.problem.platformCount + 1 ∧
      residual.getD 0 0 = 0 := by
  cases h with
  | relaxed hdue =>
    have hfirst := Rounding.consistent_start planner.problem lp planner.memory ()
    exact ⟨hcarried.passed hfirst hstart (.due hdue), hfirst.length, hfirst.depot⟩
  | whole chooser hreached hdue =>
    have hfirst := Rounding.consistent_start planner.problem lp planner.memory chooser
    have hr := hreached.consistent hfirst
    have hbetween := hcarried.reached hfirst hstart hreached
    exact ⟨hcarried.passed hr hbetween (.due hdue), hr.length, hr.depot⟩

theorem Solving.aligned [Lp.KeepsProgram L] (h : planner.Solving lp residual g)
    (hlp : Lp.Blank lp planner.problem.platformCount) :
    (g.state.master.Based planner.problem residual ∧
      g.state.master.Aligned planner.problem residual) ∧
      residual.length = planner.problem.platformCount + 1 ∧ residual.getD 0 0 = 0 :=
  h.within ((Rounding.carried_based _ _).and (Rounding.carried_aligned _ _))
    ⟨MasterProgram.trim_start hlp.rowCount, hlp.rowCount, hlp.no_columns, hlp.rhs_length⟩

theorem blank_ofRows [Lp.Solver T α] (solver : T) (rows : ℕ) :
    Lp.Blank (.ofRows solver rows : Lp.Store T α) rows where
  rowCount := List.length_replicate
  rhs_length := List.length_replicate
  no_columns := rfl

end Planner

end Runs

/-- Whatever is solved for a relaxed or a whole plan over a store without columns, the reduction
leaves out the rows of the platforms where nobody waits and the columns in front to them, and
nothing else; it goes on to the solver unless nobody waits at all. In exact arithmetic, if the
duals that the solver reports are bettered by no column of the reduced program, then those of the
store are bettered by none of the whole program. -/
theorem Planner.leftOut_harmless :
    (∀ {α T : Type} [Scalar α] [Scalar.Counts α] [Lp.Solver T α] (planner : Planner α) (solver : T)
      {residual : List ℕ} {g : ColumnGeneration (Lp.Store T α) α},
      planner.Solving (.ofRows solver planner.problem.platformCount) residual g →
      g.state.master.program.LeavesOutServed planner.problem.platformCount residual) ∧
    ∀ {K T : Type} [Field K] [LinearOrder K] [FloorRing K] [IsStrictOrderedRing K] [Lp.Solver T K]
      (planner : Planner K) (solver : T) {residual : List ℕ}
      {g : ColumnGeneration (Lp.Store T K) K},
      planner.Solving (.ofRows solver planner.problem.platformCount) residual g →
      (∀ solution solver', Lp.Solver.solve g.state.master.lp.solver
          g.state.master.program.reduced = (.ok solution, solver') →
        ∀ c ∈ g.state.master.program.reduced.columns,
          0 ≤ c.reducedCost g.state.master.program.reduced.rhs.length
            fun i => solution.duals.getD i 0) →
      ∀ master, g.state.master.solve = (.ok (), master) → master.Unbettered := by
  constructor
  · intro α T _ _ _ planner solver residual g h
    obtain ⟨⟨hbased, haligned⟩, hlength, hdepot⟩ := h.aligned (blank_ofRows solver _)
    exact haligned.leavesOutServed hbased hlength hdepot
  · intro K T _ _ _ _ _ planner solver residual g h hdual master hsolve
    obtain ⟨⟨hbased, haligned⟩, hlength, -⟩ := h.aligned (blank_ofRows solver _)
    exact haligned.unbettered hbased hlength hdual hsolve

namespace Lopsided

def planner : Planner ℚ := .start problem settings

def lp : Lp.Store Lp.RationalSimplex ℚ := .ofRows ⟨⟩ 2

/-- The relaxation before its first iteration. -/
def relaxing : ColumnGeneration (Lp.Store Lp.RationalSimplex ℚ) ℚ :=
  .start problem [0, 0, 1] ⟨(MasterProgram.start lp).reset problem [0, 0, 1], .empty⟩

/-- The row of the first platform and its column are left out. -/
theorem leftOut_harmless_lopsided : planner.Solving lp [0, 0, 1] relaxing ∧
    relaxing.state.master.program.LeavesOutServed 2 [0, 0, 1] ∧
    relaxing.state.master.program.active = [1] ∧
    relaxing.state.master.program.keptIndices = [1] ∧
    ∃ master, relaxing.state.master.solve = (.ok (), master) ∧ master.Unbettered ∧
      master.duals = [0, 0, 4] := by
  have hsolving : planner.Solving lp [0, 0, 1] relaxing :=
    .relaxed (.start (MasterProgram.resetChecked_of_lt (by decide)))
  have hduals : (Lp.Simplex.solve relaxing.state.master.program.reduced).toOption.map
      Lp.Solution.duals = some [4] := by
    decide +kernel
  have hok : relaxing.state.master.solve.1.isOk = true := by decide +kernel
  have hsolve : relaxing.state.master.solve = (.ok (), relaxing.state.master.solve.2) := by
    refine Prod.ext ?_ rfl
    cases hanswer : relaxing.state.master.solve.1 with
    | error e =>
      rw [hanswer] at hok
      cases hok
    | ok => rfl
  refine ⟨hsolving, Planner.leftOut_harmless.1 planner Lp.RationalSimplex.mk hsolving,
    by decide +kernel, by decide +kernel, _, hsolve, ?_, by decide +kernel⟩
  refine Planner.leftOut_harmless.2 planner Lp.RationalSimplex.mk hsolving ?_ _ hsolve
  intro solution solver hanswer
  have hfound : Lp.Simplex.solve relaxing.state.master.program.reduced = .ok solution :=
    congrArg Prod.fst hanswer
  rw [hfound] at hduals
  have hdual : solution.duals = [4] := Option.some.inj hduals
  rw [hdual]
  decide +kernel

end Lopsided

end OffshoreFlights
