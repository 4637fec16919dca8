import Mathlib.Algebra.Order.BigOperators.Group.Finset
import OffshoreFlights.Proofs.Itinerary.Column
import OffshoreFlights.Proofs.Lp.InStep
import OffshoreFlights.Proofs.Rounding.Columns

/-! The programs that are solved in exact arithmetic. The platforms' own itineraries alone meet all
rows, and every itinerary has passengers, which bounds how often it is flown; so each program is
solvable, whatever the scans have found. In every solution, wherever somebody waits, an itinerary is
flown that serves the platform. -/

namespace OffshoreFlights

namespace MasterProgram

variable {K L : Type} [Field K] [LinearOrder K] [FloorRing K] [Lp.Backend L K] [Lp.KeepsProgram L]
  {p : Problem K} {residual : List ℕ} {m : MasterProgram L K}

/-- What holds whenever the program is to be solved: the itineraries are those for the residual
demands, the columns are theirs, and the rows ask for the residual demands. -/
structure Ready (p : Problem K) (residual : List ℕ) (m : MasterProgram L K) : Prop
    extends Based p residual m where
  inStep : m.InStep
  rhs : m.program.rhs =
    (List.range p.platformCount).map fun i => ((residual.getD (i + 1) 0 : ℕ) : K)

theorem Ready.columns_length (h : m.Ready p residual) :
    m.program.columns.length = m.itineraries.length := by
  rw [h.inStep, List.length_map]

theorem Ready.exists_itinerary (h : m.Ready p residual) {j : ℕ}
    (hj : j < m.program.columns.length) : ∃ it, m.itineraries[j]? = some it :=
  ⟨_, List.getElem?_eq_getElem (h.columns_length ▸ hj)⟩

theorem Ready.rhs_length (h : m.Ready p residual) : m.program.rhs.length = p.platformCount := by
  rw [h.rhs, List.length_map, List.length_range]

theorem Ready.rhs_getD (h : m.Ready p residual) {row : ℕ} (hrow : row < p.platformCount) :
    m.program.rhs.getD row 0 = (residual.getD (row + 1) 0 : ℕ) := by
  rw [h.rhs, List.getD_eq_getElem _ _ (by simpa using hrow)]
  simp

theorem Ready.coefficient (h : m.Ready p residual) {j : ℕ} {it : Itinerary K}
    (hget : m.itineraries[j]? = some it) (row : ℕ) :
    m.program.coefficient row j = it.servedAt (row + 1) := by
  unfold Lp.Program.coefficient
  rw [h.inStep, List.getElem?_map, hget]
  exact it.coefficient_column row

theorem Ready.coefficient_basis (h : m.Ready p residual) {j : ℕ} (hj : j < p.platformCount)
    (row : ℕ) : m.program.coefficient row j =
      if row = j then ((max (min p.capacity (residual.getD (j + 1) 0)) 1 : ℕ) : K) else 0 := by
  rw [h.coefficient (h.getElem?_basis hj), servedAt_basisItinerary p residual hj]
  by_cases hrow : row = j
  · simp [hrow]
  · simp [hrow]

variable [IsStrictOrderedRing K]

theorem Ready.coefficient_nonneg (h : m.Ready p residual) (row j : ℕ) :
    0 ≤ m.program.coefficient row j := by
  cases hget : m.itineraries[j]? with
  | none =>
    unfold Lp.Program.coefficient
    rw [h.inStep, List.getElem?_map, hget]
    exact le_refl _
  | some it =>
    rw [h.coefficient hget]
    exact Nat.cast_nonneg _

/-- The platforms' own itineraries alone meet all rows. -/
theorem Ready.feasible (h : m.Ready p residual) : m.program.Feasible := by
  refine ⟨fun j => if j < p.platformCount then ((residual.getD (j + 1) 0 : ℕ) : K) /
    ((max (min p.capacity (residual.getD (j + 1) 0)) 1 : ℕ) : K) else 0, fun j _ => ?_,
    fun row hrow => ?_⟩
  · split
    · exact div_nonneg (Nat.cast_nonneg _) (Nat.cast_nonneg _)
    · exact le_refl _
  · rw [h.rhs_length] at hrow
    rw [h.rhs_getD hrow, Finset.sum_eq_single row]
    · rw [h.coefficient_basis hrow, if_pos rfl, if_pos hrow]
      refine mul_div_cancel₀ _ (Nat.cast_ne_zero.mpr ?_)
      omega
    · intro j _ hj
      by_cases hbasis : j < p.platformCount
      · rw [h.coefficient_basis hbasis, if_neg (Ne.symm hj), zero_mul]
      · rw [if_neg hbasis, mul_zero]
    · intro hnot
      have := h.le_length
      rw [Finset.mem_range, h.columns_length] at hnot
      omega

theorem Ready.coefficient_mul_le (h : m.Ready p residual) {x : ℕ → K}
    (hx : m.program.IsFeasible x) {row j : ℕ} (hrow : row < p.platformCount)
    (hj : j < m.program.columns.length) :
    m.program.coefficient row j * x j ≤ (residual.getD (row + 1) 0 : ℕ) := by
  rw [← h.rhs_getD hrow, ← hx.meets row (by rwa [h.rhs_length])]
  exact Finset.single_le_sum (f := fun j => m.program.coefficient row j * x j)
    (fun j hj => mul_nonneg (h.coefficient_nonneg row j) (hx.nonneg j (Finset.mem_range.mp hj)))
    (Finset.mem_range.mpr hj)

/-- No itinerary is flown more often than there are passengers. -/
theorem Ready.le_headcount (h : m.Ready p residual) {x : ℕ → K} (hx : m.program.IsFeasible x)
    {j : ℕ} (hj : j < m.program.columns.length) : x j ≤ (headcount residual : ℕ) := by
  obtain ⟨it, hget⟩ := h.exists_itinerary hj
  obtain ⟨hseated, hcarries⟩ := h.carries (List.mem_of_getElem? hget)
  obtain ⟨row, hrow, hserved⟩ := exists_getD_pos hseated.length hseated.depot hcarries
  have hone : (1 : K) ≤ m.program.coefficient row j := by
    rw [h.coefficient hget]
    exact_mod_cast hserved
  calc x j ≤ m.program.coefficient row j * x j := le_mul_of_one_le_left (hx.nonneg j hj) hone
    _ ≤ (residual.getD (row + 1) 0 : ℕ) := h.coefficient_mul_le hx hrow hj
    _ ≤ (headcount residual : ℕ) := Nat.cast_le.mpr (getD_le_headcount _ _)

/-- So however long or short the tours, there is a least cost. -/
theorem Ready.boundedBelow (h : m.Ready p residual) : m.program.BoundedBelow := by
  refine ⟨∑ j ∈ Finset.range m.program.columns.length,
    -(|m.program.cost j| * (headcount residual : ℕ)), fun x hx => ?_⟩
  refine Finset.sum_le_sum fun j hj => ?_
  have hj := Finset.mem_range.mp hj
  calc -(|m.program.cost j| * (headcount residual : ℕ))
      ≤ -(|m.program.cost j| * x j) :=
        neg_le_neg (mul_le_mul_of_nonneg_left (h.le_headcount hx hj) (abs_nonneg _))
    _ = -|m.program.cost j| * x j := (neg_mul _ _).symm
    _ ≤ m.program.cost j * x j := mul_le_mul_of_nonneg_right (neg_abs_le _) (hx.nonneg j hj)

/-- Wherever somebody waits, an itinerary that serves the platform is flown more often than the
tolerance, unless the tolerance is so large that it hides a whole passenger. -/
theorem Ready.exists_flown (h : m.Ready p residual) {x : ℕ → K} (hx : m.program.IsFeasible x)
    {tolerance : K} (hsmall : tolerance * p.capacity * m.program.columns.length < 1) {row : ℕ}
    (hrow : row < p.platformCount) (hwaiting : 0 < residual.getD (row + 1) 0) :
    ∃ j it, m.itineraries[j]? = some it ∧ 0 < it.servedAt (row + 1) ∧ tolerance < x j := by
  by_contra hnone
  push Not at hnone
  have hterm : ∀ j ∈ Finset.range m.program.columns.length,
      m.program.coefficient row j * x j ≤ max tolerance 0 * p.capacity := by
    intro j hj
    obtain ⟨it, hget⟩ := h.exists_itinerary (Finset.mem_range.mp hj)
    obtain ⟨hseated, -⟩ := h.carries (List.mem_of_getElem? hget)
    rw [h.coefficient hget]
    by_cases hserved : 0 < it.servedAt (row + 1)
    · have hle : x j ≤ max tolerance 0 := (hnone j _ hget hserved).trans (le_max_left _ _)
      have hseats : (it.servedAt (row + 1) : K) ≤ p.capacity :=
        Nat.cast_le.mpr ((getD_le_headcount _ _).trans hseated.seats)
      rw [mul_comm]
      exact mul_le_mul hle hseats (Nat.cast_nonneg _) (le_max_right _ _)
    · rw [Nat.eq_zero_of_not_pos hserved, Nat.cast_zero, zero_mul]
      exact mul_nonneg (le_max_right _ _) (Nat.cast_nonneg _)
  have hsum := Finset.sum_le_sum hterm
  rw [hx.meets row (by rwa [h.rhs_length]), h.rhs_getD hrow, Finset.sum_const, Finset.card_range,
    nsmul_eq_mul, mul_comm] at hsum
  have hone : (1 : K) ≤ (residual.getD (row + 1) 0 : ℕ) := by exact_mod_cast hwaiting
  rcases le_total tolerance 0 with hsign | hsign
  · rw [max_eq_right hsign, zero_mul, zero_mul] at hsum
    linarith
  · rw [max_eq_left hsign] at hsum
    linarith

theorem Ready.solvable (h : m.Ready p residual) : m.program.Solvable := ⟨h.feasible, h.boundedBelow⟩

end MasterProgram

/-! ### Between solutions -/

section Runs

variable {K L : Type} [Field K] [LinearOrder K] [FloorRing K] [Lp.Backend L K] [Lp.KeepsProgram L]
  {p : Problem K} {residual : List ℕ} {m : MasterProgram L K}

/-- What holds between rounds: a reset makes the program ready to be solved. -/
structure MasterProgram.Resettable (p : Problem K) (residual : List ℕ) (m : MasterProgram L K) :
    Prop extends Trim p residual m where
  inStep : m.InStep
  rows : m.program.rhs.length = p.platformCount

theorem MasterProgram.Resettable.reset (h : m.Resettable p residual) :
    (m.reset p residual).Ready p residual :=
  ⟨h.toTrim.reset, h.inStep.reset p residual, rhs_reset h.rows residual⟩

theorem MasterProgram.Ready.removeUnfit (h : m.Ready p residual) (left : List ℕ) :
    (m.removeUnfit left).2.Resettable p left := by
  refine ⟨h.toTrim.removeUnfit left, h.inStep.removeUnfit left, ?_⟩
  rw [rhs_removeUnfit, h.rhs_length]

theorem ColumnGeneration.preserved_ready (hlength : residual.length = p.platformCount + 1)
    (settings : Settings K) :
    Preserved (L := L) p settings residual fun st => st.master.Ready p residual := by
  have hbased := preserved_based (L := L) hlength settings
  refine ⟨fun st h => ⟨hbased.solve st h.toBased, h.inStep.solve, ?_⟩,
    fun t stops scan scan' hp hs hr ht hvisit h =>
      ⟨hbased.visit t stops scan scan' hp hs hr ht hvisit h.toBased, ?_, ?_⟩⟩
  · rw [MasterProgram.program_solve]
    exact h.rhs
  · rcases hvisit.look.master_eq_or_add with hmaster | hmaster <;> rw [hmaster]
    · exact h.inStep
    · exact h.inStep.add _
  · rcases hvisit.look.master_eq_or_add with hmaster | hmaster <;> rw [hmaster]
    · exact h.rhs
    · rw [MasterProgram.rhs_add]
      exact h.rhs

theorem ColumnGeneration.generate_ready (hlength : residual.length = p.platformCount + 1)
    {state final : SolverState L K} (h : state.master.Resettable p residual)
    {result : Except (Error K) (Outcome K)}
    (hrun : generate p settings residual state = (result, final)) :
    final.master.Ready p residual := by
  rw [show final = (generate p settings residual state).2 by rw [hrun]]
  exact generate_preserves (preserved_ready hlength settings) (fun _ => h.reset)
    fun hle => by omega

end Runs

end OffshoreFlights
