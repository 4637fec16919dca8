import OffshoreFlights.Proofs.Lp.Program
import OffshoreFlights.Proofs.Lp.Transport

/-! An LP backend under audit: beside it stand the program that it has been asked to hold, and every
answer that it has given. The audit says what a run was told, so that the trust put in a backend can
be limited to that. -/

namespace OffshoreFlights.Lp

/-- A backend that keeps its program as a list of columns: what is added comes last, what is
replaced keeps its place, and what comes after deleted columns moves up. -/
class KeepsProgram (L : Type) {α : outParam Type} [Backend L α] where
  program : L → Program α
  program_setRhs : ∀ l row value,
    program (Backend.setRhs l row value) =
      { program l with rhs := (program l).rhs.set row value }
  program_addColumn : ∀ l column,
    program (Backend.addColumn l column) =
      { program l with columns := (program l).columns ++ [column] }
  program_replaceColumn : ∀ l index column,
    program (Backend.replaceColumn l index column) =
      { program l with columns := (program l).columns.set index column }
  program_deleteColumns : ∀ l indices,
    program (Backend.deleteColumns l indices) =
      { program l with columns := eraseIndices indices (program l).columns }
  program_solve : ∀ l, program (Backend.solve l).2 = program l

/-- A program that a backend was asked to solve, and what it answered. -/
structure Solve (α : Type) where
  program : Program α
  answer : Except (Error α) Unit
  objective : α
  primal : ℕ → α
  dual : ℕ → α

/-- A backend with the program that it should hold and its answers, the latest first. -/
structure Audited (L α : Type) where
  backend : L
  program : Program α
  solves : List (Solve α)

namespace Audited

variable {L α : Type} [Scalar α] [Backend L α]

/-- A backend of which nothing has been asked. -/
def start (lp : L) : Audited L α := ⟨lp, ⟨List.replicate (Backend.rowCount lp) 0, []⟩, []⟩

instance : Backend (Audited L α) α where
  rowCount a := Backend.rowCount a.backend
  setRhs a row value :=
    { a with
      backend := Backend.setRhs a.backend row value
      program := { a.program with rhs := a.program.rhs.set row value } }
  addColumn a column :=
    { a with
      backend := Backend.addColumn a.backend column
      program := { a.program with columns := a.program.columns ++ [column] } }
  replaceColumn a index column :=
    { a with
      backend := Backend.replaceColumn a.backend index column
      program := { a.program with columns := a.program.columns.set index column } }
  deleteColumns a indices :=
    { a with
      backend := Backend.deleteColumns a.backend indices
      program := { a.program with columns := eraseIndices indices a.program.columns } }
  solve a :=
    let (answer, backend) := Backend.solve a.backend
    (answer, { a with
      backend
      solves := ⟨a.program, answer, Backend.objective backend, Backend.primal backend,
        Backend.dual backend⟩ :: a.solves })
  objective a := Backend.objective a.backend
  primal a := Backend.primal a.backend
  dual a := Backend.dual a.backend

instance : KeepsProgram (Audited L α) where
  program := Audited.program
  program_setRhs _ _ _ := rfl
  program_addColumn _ _ := rfl
  program_replaceColumn _ _ _ := rfl
  program_deleteColumns _ _ := rfl
  program_solve _ := rfl

omit [Scalar α] in
/-- An audit changes nothing. -/
theorem hom_backend : Hom (Audited.backend : Audited L α → L) :=
  ⟨fun _ => rfl, fun _ _ _ => rfl, fun _ _ => rfl, fun _ _ _ => rfl, fun _ _ => rfl, fun _ => rfl,
    fun _ => rfl, fun _ _ => rfl, fun _ _ => rfl⟩

end Audited

section Solvable

variable {K : Type} [Field K] [LinearOrder K]

/-- An answer that can be relied on: if the program is feasible and bounded, the backend has
reported values that meet all rows. Nothing is asked of their cost or of the dual values. -/
def Solve.Reliable (s : Solve K) : Prop :=
  s.program.Solvable → s.answer = .ok () ∧ s.program.IsFeasible s.primal

/-- An answer with values that meet all rows and dual values that no column betters, both worth the
objective that is reported. So both are optimal. -/
structure Solve.Optimal (s : Solve K) : Prop where
  answered : s.answer = .ok ()
  primal : s.program.IsFeasible s.primal
  dual : ∀ c ∈ s.program.columns, 0 ≤ c.reducedCost s.program.rhs.length s.dual
  cost : s.objective = s.program.objective s.primal
  worth : s.objective =
    ∑ row ∈ Finset.range s.program.rhs.length, s.program.rhs.getD row 0 * s.dual row

instance [DecidableEq K] (s : Solve K) : Decidable s.Optimal :=
  decidable_of_iff (s.answer = .ok () ∧ s.program.IsFeasible s.primal ∧
      (∀ c ∈ s.program.columns, 0 ≤ c.reducedCost s.program.rhs.length s.dual) ∧
      s.objective = s.program.objective s.primal ∧ s.objective =
        ∑ row ∈ Finset.range s.program.rhs.length, s.program.rhs.getD row 0 * s.dual row)
    ⟨fun h => ⟨h.1, h.2.1, h.2.2.1, h.2.2.2.1, h.2.2.2.2⟩,
      fun h => ⟨h.answered, h.primal, h.dual, h.cost, h.worth⟩⟩

/-- Answers that go on from others, to solvable programs. -/
structure GoesOn (before after : List (Solve K)) : Prop where
  kept : ∀ s ∈ before, s ∈ after
  solvable : ∀ s ∈ after, s ∈ before ∨ s.program.Solvable

theorem GoesOn.refl (solves : List (Solve K)) : GoesOn solves solves :=
  ⟨fun _ hs => hs, fun _ hs => .inl hs⟩

theorem GoesOn.trans {first second third : List (Solve K)} (h : GoesOn first second)
    (h' : GoesOn second third) : GoesOn first third := by
  refine ⟨fun s hs => h'.kept s (h.kept s hs), fun s hs => ?_⟩
  rcases h'.solvable s hs with hs | hsolvable
  · exact h.solvable s hs
  · exact .inr hsolvable

theorem GoesOn.cons {s : Solve K} (hs : s.program.Solvable) (solves : List (Solve K)) :
    GoesOn solves (s :: solves) := by
  refine ⟨fun _ => List.mem_cons_of_mem s, fun s' hs' => ?_⟩
  rcases List.mem_cons.mp hs' with rfl | hs'
  · exact .inr hs
  · exact .inl hs'

end Solvable

end OffshoreFlights.Lp
