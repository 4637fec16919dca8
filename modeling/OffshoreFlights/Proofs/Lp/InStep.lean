import OffshoreFlights.Proofs.Lp.Audited
import OffshoreFlights.Proofs.Lp.Deletion
import OffshoreFlights.Proofs.Pricing.Stock

/-! The itineraries of the master program in step with the columns that its backend keeps: the
column at an index is the column of the itinerary at that index, and after a reset each row holds
the residual demand of its platform. -/

namespace OffshoreFlights.MasterProgram

variable {L α : Type} [Scalar α] [Lp.Backend L α] [Lp.KeepsProgram L] {m : MasterProgram L α}
  {p : Problem α} {residual : List ℕ}

/-- The program that the backend keeps. -/
def program (m : MasterProgram L α) : Lp.Program α := Lp.KeepsProgram.program m.lp

/-- The columns are those of the itineraries, in order. -/
def InStep (m : MasterProgram L α) : Prop := m.program.columns = m.itineraries.map Itinerary.column

theorem InStep.resetRow (h : m.InStep) (j : ℕ) : (resetRow p residual m j).InStep := by
  unfold InStep at h ⊢
  unfold MasterProgram.resetRow program
  split
  next hj =>
    dsimp only
    rw [Lp.KeepsProgram.program_replaceColumn, Lp.KeepsProgram.program_setRhs, List.map_set]
    exact congrArg (List.set · (j - 1) (basisItinerary p residual j).column) h
  next hj =>
    dsimp only
    rw [Lp.KeepsProgram.program_addColumn, Lp.KeepsProgram.program_setRhs, List.map_append]
    exact congrArg (fun columns => columns ++ _) h

theorem InStep.reset (h : m.InStep) (p : Problem α) (residual : List ℕ) :
    (m.reset p residual).InStep :=
  reset_induction (fun _ j h => h.resetRow j) (fun _ h => h) h

theorem InStep.add (h : m.InStep) (it : Itinerary α) : (m.add it).2.InStep := by
  by_cases hcontains : m.contains it = true
  · rw [add_of_contains hcontains]
    exact h
  · rw [add_of_not_contains (by simpa using hcontains)]
    unfold InStep program at h ⊢
    rw [Lp.KeepsProgram.program_addColumn, List.map_append]
    exact congrArg (fun columns => columns ++ _) h

omit [Scalar α] in
theorem program_solve (m : MasterProgram L α) : m.solve.2.program = m.program :=
  Lp.KeepsProgram.program_solve m.lp

theorem InStep.solve (h : m.InStep) : m.solve.2.InStep := by
  unfold InStep
  rw [program_solve]
  exact h

theorem InStep.removeUnfit (h : m.InStep) (residual : List ℕ) :
    (m.removeUnfit residual).2.InStep := by
  unfold MasterProgram.removeUnfit
  dsimp only
  split
  · exact h
  · unfold InStep program at h ⊢
    show (Lp.KeepsProgram.program (Lp.Backend.deleteColumns m.lp _)).columns =
      (Lp.eraseIndices _ m.itineraries).map Itinerary.column
    rw [Lp.KeepsProgram.program_deleteColumns, Lp.map_eraseIndices]
    exact congrArg (Lp.eraseIndices _) h

/-! ### Right-hand sides -/

theorem rhs_resetRow (j : ℕ) :
    (resetRow p residual m j).program.rhs =
      m.program.rhs.set (j - 1) ((residual.getD j 0 : ℕ) : α) := by
  unfold MasterProgram.resetRow program
  split
  · rw [Lp.KeepsProgram.program_replaceColumn, Lp.KeepsProgram.program_setRhs]
  · rw [Lp.KeepsProgram.program_addColumn, Lp.KeepsProgram.program_setRhs]

theorem rhs_resetRows (residual : List ℕ) {n : ℕ} (hn : n ≤ m.program.rhs.length) :
    (((List.range n).map (· + 1)).foldl (MasterProgram.resetRow p residual) m).program.rhs =
      ((List.range n).map fun i => ((residual.getD (i + 1) 0 : ℕ) : α)) ++
        m.program.rhs.drop n := by
  induction n with
  | zero => rfl
  | succ n ih =>
    rw [List.range_succ, List.map_append, List.foldl_append, List.map_append]
    show (MasterProgram.resetRow p residual _ (n + 1)).program.rhs = _
    rw [rhs_resetRow, ih (by omega), Nat.add_sub_cancel,
      set_append_drop (by simp) (by omega)]
    rfl

theorem rhs_reset (hrows : m.program.rhs.length = p.platformCount) (residual : List ℕ) :
    (m.reset p residual).program.rhs =
      (List.range p.platformCount).map fun i => ((residual.getD (i + 1) 0 : ℕ) : α) := by
  have h := rhs_resetRows (p := p) residual hrows.ge
  rw [← hrows, List.drop_length, List.append_nil, hrows] at h
  exact h

theorem rhs_add (m : MasterProgram L α) (it : Itinerary α) :
    (m.add it).2.program.rhs = m.program.rhs := by
  by_cases hcontains : m.contains it = true
  · rw [add_of_contains hcontains]
  · rw [add_of_not_contains (by simpa using hcontains)]
    unfold program
    rw [Lp.KeepsProgram.program_addColumn]

omit [Scalar α] in
theorem rhs_removeUnfit (m : MasterProgram L α) (residual : List ℕ) :
    (m.removeUnfit residual).2.program.rhs = m.program.rhs := by
  unfold MasterProgram.removeUnfit
  dsimp only
  split
  · rfl
  · show (Lp.KeepsProgram.program (Lp.Backend.deleteColumns m.lp _)).rhs = _
    rw [Lp.KeepsProgram.program_deleteColumns]
    rfl

/-! ### Answers -/

section Answers

variable {K L : Type}

/-- The answers that the backend has given. -/
def solves (m : MasterProgram (Lp.Audited L K) K) : List (Lp.Solve K) := m.lp.solves

end Answers

section Answers

variable {L α : Type} [Scalar α] [Lp.Backend L α]

theorem solves_resetRow (p : Problem α) (residual : List ℕ) (m : MasterProgram (Lp.Audited L α) α)
    (j : ℕ) : (MasterProgram.resetRow p residual m j).solves = m.solves := by
  unfold MasterProgram.resetRow
  split <;> rfl

theorem solves_reset (p : Problem α) (residual : List ℕ) (m : MasterProgram (Lp.Audited L α) α) :
    (m.reset p residual).solves = m.solves :=
  reset_induction (P := fun m' => m'.solves = m.solves)
    (fun m' j h => (solves_resetRow p residual m' j).trans h) (fun _ h => h) rfl

/-- The master program stands as a certain solution left it: the backend was asked to solve the
program as it is, and what it reports is what it answered. -/
structure SolvedAs (m : MasterProgram (Lp.Audited L α) α) (s : Lp.Solve α) : Prop where
  called : ∃ before : MasterProgram (Lp.Audited L α) α, before.solve = (s.answer, m)
  program : s.program = m.program
  objective : s.objective = m.objective
  primal : s.primal = Lp.Backend.primal m.lp
  dual : s.dual = Lp.Backend.dual m.lp

omit [Scalar α] in
theorem solvedAs_of_solve {m m' : MasterProgram (Lp.Audited L α) α} {answer : Except (Error α) Unit}
    (h : m.solve = (answer, m')) :
    ∃ s, s.answer = answer ∧ m'.solves = s :: m.solves ∧ m'.SolvedAs s := by
  cases h
  exact ⟨_, rfl, rfl, ⟨m, rfl⟩, rfl, rfl, rfl, rfl⟩

theorem solves_add (m : MasterProgram (Lp.Audited L α) α) (it : Itinerary α) :
    (m.add it).2.solves = m.solves := by
  unfold MasterProgram.add
  split <;> rfl

omit [Scalar α] in
theorem solves_removeUnfit (m : MasterProgram (Lp.Audited L α) α) (residual : List ℕ) :
    (m.removeUnfit residual).2.solves = m.solves := by
  unfold MasterProgram.removeUnfit
  dsimp only
  split <;> rfl

end Answers

end OffshoreFlights.MasterProgram

namespace OffshoreFlights.Pricing.Terms

/-- A scan solves nothing. -/
theorem solves_scan {L α : Type} [Scalar α] [Lp.Backend L α] (t : Terms α)
    (state : SolverState (Lp.Audited L α) α) :
    (t.scan state).state.master.solves = state.master.solves := by
  refine scan_preserves (P := fun _ st => st.master.solves = state.master.solves) ?_ rfl
  intro stops scan scan' hvisit h
  rcases hvisit.look.master_eq_or_add with hmaster | hmaster <;> rw [hmaster]
  · exact h
  · rw [MasterProgram.solves_add]
    exact h

end OffshoreFlights.Pricing.Terms
