import OffshoreFlights.Lp.Recorded
import OffshoreFlights.Lp.Simplex
import OffshoreFlights.Proofs.Lp.InStep
import OffshoreFlights.Proofs.Lp.Solved

/-! The master program under any operations. From the first reset on, the program that the backend
keeps, the list of itineraries and the record of their allocations say the same, whatever is reset,
added, removed and solved, and in whatever order. -/

namespace OffshoreFlights

/-! ### Backends that keep their program -/

namespace Lp

theorem Store.program_solve {T α : Type} [Scalar α] [Solver T α] (s : Store T α) :
    s.solve.2.program = s.program :=
  s.solve_outcome.program

instance {T α : Type} [Scalar α] [Solver T α] : KeepsProgram (Store T α) where
  program := Store.program
  program_setRhs _ _ _ := rfl
  program_addColumn _ _ := rfl
  program_replaceColumn _ _ _ := rfl
  program_deleteColumns _ _ := rfl
  program_solve := Store.program_solve

instance {L α : Type} [Backend L α] [KeepsProgram L] : KeepsProgram (Recorded L α) where
  program r := KeepsProgram.program r.backend
  program_setRhs r := KeepsProgram.program_setRhs r.backend
  program_addColumn r := KeepsProgram.program_addColumn r.backend
  program_replaceColumn r := KeepsProgram.program_replaceColumn r.backend
  program_deleteColumns r := KeepsProgram.program_deleteColumns r.backend
  program_solve r := KeepsProgram.program_solve r.backend

/-- A backend with so many rows and without columns. -/
structure Blank {L α : Type} [Backend L α] [KeepsProgram L] (lp : L) (rows : ℕ) : Prop where
  rowCount : Backend.rowCount lp = rows
  rhs_length : (KeepsProgram.program lp).rhs.length = rows
  no_columns : (KeepsProgram.program lp).columns = []

end Lp

namespace MasterProgram

variable {L α : Type} [Scalar α] [Lp.Backend L α] {p : Problem α} {lp : L} {residual : List ℕ}
  {m : MasterProgram L α}

omit [Scalar α] [Lp.Backend L α] in
theorem pairwise_unfit (m : MasterProgram L α) (left : List ℕ) :
    (m.unfit left).Pairwise (· < ·) := by
  have hplaces : (m.unfit left).Sublist (List.range' 0 m.itineraries.length) := by
    rw [← List.zipIdx_map_snd 0 m.itineraries]
    exact List.filter_sublist.map Prod.snd
  exact List.Pairwise.sublist hplaces List.pairwise_lt_range'

omit [Scalar α] in
/-- The itineraries that do not fit can be taken out one at a time, from the last one on. -/
theorem foldl_eraseIdx_unfit (m : MasterProgram L α) (left : List ℕ) :
    (m.unfit left).reverse.foldl List.eraseIdx m.itineraries =
      (m.removeUnfit left).2.itineraries := by
  rw [Lp.foldl_eraseIdx (List.pairwise_reverse.mpr (pairwise_unfit m left)),
    Lp.eraseIndices_congr (fun _ => List.mem_reverse), eraseIndices_unfit, itineraries_removeUnfit]

/-- A master program reached from one over a certain backend by operations of which the first is a
reset, with the residual demands of the last reset. -/
inductive Reached (p : Problem α) (lp : L) : (residual : List ℕ) → MasterProgram L α → Prop
  | first {residual : List ℕ} {m : MasterProgram L α}
    (hreset : (start lp).resetChecked p residual = .ok m) : Reached p lp residual m
  | reset {before residual : List ℕ} {m m' : MasterProgram L α} (h : Reached p lp before m)
    (hreset : m.resetChecked p residual = .ok m') : Reached p lp residual m'
  | add {residual : List ℕ} {m : MasterProgram L α} (it : Itinerary α)
    (h : Reached p lp residual m) : Reached p lp residual (m.add it).2
  | removeUnfit {residual : List ℕ} {m : MasterProgram L α} (left : List ℕ)
    (h : Reached p lp residual m) : Reached p lp residual (m.removeUnfit left).2
  | solve {residual : List ℕ} {m : MasterProgram L α}
    (h : Reached p lp residual m) : Reached p lp residual m.solve.2

/-- Program, itineraries and record in step with one another and with the last reset, and what the
next operation does to the itineraries. -/
structure Lockstep [Lp.KeepsProgram L] (p : Problem α) (residual : List ℕ)
    (m : MasterProgram L α) : Prop where
  columns : m.program.columns = m.itineraries.map Itinerary.column
  rhs : m.program.rhs =
    (List.range p.platformCount).map fun i => ((residual.getD (i + 1) 0 : ℕ) : α)
  contains_iff : ∀ it, m.contains it = true ↔
    ∃ held ∈ m.itineraries, held.allocation = it.allocation
  basis : m.itineraries.take p.platformCount = basis p residual
  reset : ∀ residual' m', m.resetChecked p residual' = .ok m' →
    m'.itineraries = MasterProgram.basis p residual' ++ m.itineraries.drop p.platformCount
  removeUnfit : ∀ left, (m.removeUnfit left).2.itineraries =
    MasterProgram.basis p residual ++
      (m.itineraries.drop p.platformCount).filter (Itinerary.fitsWithin · left)
  /-- Taken out of the list in turn, from the last one on, the itineraries that do not fit leave the
  same. -/
  removeInTurn : ∀ left, (m.unfit left).reverse.foldl List.eraseIdx m.itineraries =
    (m.removeUnfit left).2.itineraries
  removed : ∀ left, (m.removeUnfit left).1 + (m.removeUnfit left).2.itineraries.length =
    m.itineraries.length
  add_new : ∀ it, m.contains it = false →
    (m.add it).1 = true ∧ (m.add it).2.itineraries = m.itineraries ++ [it]
  /-- An itinerary that is turned down leaves the backend as it is: nothing is asked of it. -/
  add_known : ∀ it, m.contains it = true → m.add it = (false, m)

/-- What every operation preserves. -/
structure Aligned [Lp.KeepsProgram L] (p : Problem α) (residual : List ℕ)
    (m : MasterProgram L α) : Prop where
  size : m.basisSize = p.platformCount
  inStep : m.InStep
  catalogued : m.Catalogued
  rhs : m.program.rhs =
    (List.range p.platformCount).map fun i => ((residual.getD (i + 1) 0 : ℕ) : α)
  basis : m.itineraries.take p.platformCount = basis p residual

section Steps

variable [Lp.KeepsProgram L]

theorem aligned_reset (hsize : m.basisSize = p.platformCount) (hstep : m.InStep)
    (hrhs : m.program.rhs.length = p.platformCount) (residual : List ℕ) :
    (m.reset p residual).Aligned p residual where
  size := (basisSize_reset p residual m).trans hsize
  inStep := hstep.reset p residual
  catalogued := catalogued_reset m p residual
  rhs := rhs_reset hrhs residual
  basis := take_reset p residual m

namespace Aligned

variable (h : m.Aligned p residual)

include h

theorem rhs_length : m.program.rhs.length = p.platformCount := by
  rw [h.rhs, List.length_map, List.length_range]

theorem add (it : Itinerary α) : (m.add it).2.Aligned p residual where
  size := (basisSize_add m it).trans h.size
  inStep := h.inStep.add it
  catalogued := h.catalogued.add it
  rhs := (rhs_add m it).trans h.rhs
  basis := by
    by_cases hcontains : m.contains it = true
    · rw [add_of_contains hcontains]
      exact h.basis
    · rw [add_of_not_contains (by simpa using hcontains)]
      exact (List.take_append_of_le_length (le_length_of_take h.basis)).trans h.basis

theorem removeUnfit (left : List ℕ) : (m.removeUnfit left).2.Aligned p residual where
  size := (basisSize_removeUnfit m left).trans h.size
  inStep := h.inStep.removeUnfit left
  catalogued := catalogued_removeUnfit h.catalogued
  rhs := (rhs_removeUnfit m left).trans h.rhs
  basis := (take_removeUnfit h.size left).trans h.basis

theorem solve : m.solve.2.Aligned p residual where
  size := h.size
  inStep := h.inStep.solve
  catalogued := h.catalogued
  rhs := (congrArg Lp.Program.rhs (program_solve m)).trans h.rhs
  basis := h.basis

theorem toLockstep : m.Lockstep p residual where
  columns := h.inStep
  rhs := h.rhs
  contains_iff it := h.catalogued it.allocation
  basis := h.basis
  reset residual' m' hreset := by
    rw [resetChecked_eq_ok hreset, itineraries_reset]
  removeUnfit left := by
    rw [itineraries_removeUnfit, h.size, h.basis]
  removeInTurn := foldl_eraseIdx_unfit m
  removed := length_removeUnfit m
  add_new it hnew := by
    rw [add_of_not_contains hnew]
    exact ⟨rfl, rfl⟩
  add_known it hknown := add_of_contains hknown

end Aligned

theorem Reached.aligned (hlp : Lp.Blank lp p.platformCount) (h : Reached p lp residual m) :
    m.Aligned p residual := by
  induction h with
  | @first residual m hreset =>
    rw [resetChecked_eq_ok hreset]
    have hstart : (start lp : MasterProgram L α).InStep := hlp.no_columns
    exact aligned_reset hlp.rowCount hstart hlp.rhs_length residual
  | @reset before residual m m' _ hreset ih =>
    rw [resetChecked_eq_ok hreset]
    exact aligned_reset ih.size ih.inStep ih.rhs_length residual
  | add it _ ih => exact ih.add it
  | removeUnfit left _ ih => exact ih.removeUnfit left
  | solve _ ih => exact ih.solve

/-- Whatever is done to a master program after its first reset, the columns of its backend are those
of its itineraries. -/
theorem Reached.lockstep (hlp : Lp.Blank lp p.platformCount) (h : Reached p lp residual m) :
    m.Lockstep p residual := (h.aligned hlp).toLockstep

end Steps

/-- Two itineraries are added, the first of them once more after a solution, and one passenger is
served, so that it no longer fits. -/
theorem lockstep_triangle :
    let p := Problem.triangle
    let lp : Lp.Store Lp.ExactSimplex Float := .ofRows ⟨⟩ 2
    let first : Itinerary Float := ⟨[1, 2], 33, [0, 2, 2]⟩
    let second : Itinerary Float := ⟨[2, 1], 33, [0, 1, 3]⟩
    let m := (((start lp).reset p [0, 2, 3]).add first).2
    let m' := ((((m.add second).2.solve.2.add first).2.reset p [0, 1, 3]).removeUnfit [0, 1, 3]).2
    Reached p lp [0, 1, 3] m' ∧ m'.Lockstep p [0, 1, 3] := by
  intro p lp first second m m'
  have hblank : Lp.Blank lp p.platformCount := ⟨rfl, rfl, rfl⟩
  have hfirst : Reached p lp [0, 2, 3] m :=
    .add first (.first (resetChecked_of_lt (by decide)))
  have hreached : Reached p lp [0, 1, 3] m' :=
    .removeUnfit _ (.reset (.add first (.solve (.add second hfirst)))
      (resetChecked_of_lt (by decide)))
  exact ⟨hreached, hreached.lockstep hblank⟩

end MasterProgram

end OffshoreFlights
