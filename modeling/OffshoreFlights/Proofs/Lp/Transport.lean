import OffshoreFlights.Proofs.Simulation

/-! Runs over two LP backends. A map from the states of one backend to those of another that
respects every request carries each run over the first to the run over the second, with the same
result. So what is recorded beside a backend changes nothing. -/

namespace OffshoreFlights

variable {L M S α : Type} [Lp.Backend L α] [Lp.Backend M α]

/-- A map between the states of two backends that respects all requests and answers. -/
structure Lp.Hom (f : L → M) : Prop where
  map_rowCount : ∀ l, Backend.rowCount (f l) = Backend.rowCount l
  map_setRhs : ∀ l row value, Backend.setRhs (f l) row value = f (Backend.setRhs l row value)
  map_addColumn : ∀ l column, Backend.addColumn (f l) column = f (Backend.addColumn l column)
  map_replaceColumn : ∀ l index column,
    Backend.replaceColumn (f l) index column = f (Backend.replaceColumn l index column)
  map_deleteColumns : ∀ l indices,
    Backend.deleteColumns (f l) indices = f (Backend.deleteColumns l indices)
  map_solve : ∀ l, Backend.solve (f l) = ((Backend.solve l).1, f (Backend.solve l).2)
  map_objective : ∀ l, Backend.objective (f l) = Backend.objective l
  map_primal : ∀ l index, Backend.primal (f l) index = Backend.primal l index
  map_dual : ∀ l row, Backend.dual (f l) row = Backend.dual l row

/-- The master program over another backend. -/
def MasterProgram.mapLp (f : L → M) (m : MasterProgram L α) : MasterProgram M α :=
  ⟨f m.lp, m.itineraries, m.known, m.basisSize⟩

def SolverState.mapLp (f : L → M) (st : SolverState L α) : SolverState M α :=
  ⟨st.master.mapLp f, st.memory⟩

def Rounding.mapLp (f : L → M) (r : Rounding L S α) : Rounding M S α :=
  ⟨r.residual, r.remaining, r.plan, r.bound, r.rounds, r.solver.mapLp f, r.chooser⟩

namespace Lp.Hom

variable {f : L → M} (hf : Hom f)

include hf in
/-- A backend and its image answer alike. -/
theorem simulation : Simulation fun (l : L) (m : M) => m = f l where
  rowCount h := h ▸ hf.map_rowCount _
  setRhs row value h := h ▸ hf.map_setRhs _ row value
  addColumn column h := h ▸ hf.map_addColumn _ column
  replaceColumn index column h := h ▸ hf.map_replaceColumn _ index column
  deleteColumns indices h := h ▸ hf.map_deleteColumns _ indices
  solve {l m} h := by
    subst h
    rw [hf.map_solve]
    exact ⟨rfl, rfl⟩
  objective h := h ▸ hf.map_objective _
  primal index h := h ▸ hf.map_primal _ index
  dual row h := h ▸ hf.map_dual _ row

variable [Scalar α] [FlightChooser S α]

omit [Lp.Backend L α] [Lp.Backend M α] [Scalar α] [FlightChooser S α] in
theorem alike_iff {r : Rounding L S α} {r' : Rounding M S α} :
    r.Alike (fun l m => m = f l) Eq Eq r' ↔ r' = r.mapLp f := by
  constructor
  · intro h
    obtain ⟨residual, remaining, plan, bound, rounds, ⟨⟨lp, its, known, basisSize⟩, memory⟩,
      chooser⟩ := r'
    obtain ⟨rfl, rfl, rfl, rfl, rfl, ⟨⟨rfl, rfl, rfl, rfl⟩, rfl⟩, rfl⟩ := h
    rfl
  · rintro rfl
    exact ⟨rfl, rfl, rfl, rfl, rfl, ⟨⟨rfl, rfl, rfl, rfl⟩, rfl⟩, rfl⟩

include hf in
/-- A map that respects all requests carries rounding over one backend to rounding over another. -/
theorem map_finish (p : Problem α) (settings : Settings α) (r : Rounding L S α) :
    Rounding.finish p settings (r.mapLp f) =
      ((Rounding.finish p settings r).1, (Rounding.finish p settings r).2.mapLp f) := by
  have hstart : r.Alike (fun l m => m = f l) Eq Eq (r.mapLp f) := alike_iff.mpr rfl
  obtain ⟨herror, hfinal⟩ := hstart.finish hf.simulation (TourMemory.simulation_eq p _)
    FlightChooser.simulation_eq
  exact Prod.ext herror (alike_iff.mp hfinal)

include hf in
theorem wholePlan_eq_ok {p : Problem α} {settings : Settings α} {solver : SolverState L α}
    {chooser : S} {final : Rounding L S α}
    (hfinish : Rounding.finish p settings (.start p solver chooser) = (none, final)) :
    (Rounding.wholePlan p settings (solver.mapLp f) chooser).1 =
      .ok ⟨final.plan, final.bound, final.rounds⟩ := by
  have hmap := hf.map_finish p settings (.start p solver chooser)
  rw [hfinish] at hmap
  exact Rounding.wholePlan_eq_ok.mpr ⟨_, hmap, rfl⟩

end Lp.Hom

end OffshoreFlights
