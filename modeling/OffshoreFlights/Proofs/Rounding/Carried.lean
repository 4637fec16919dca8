import OffshoreFlights.Proofs.Rounding.Passed
import OffshoreFlights.Proofs.Rounding.Service

/-! Facts about master program and memory that the rounds of a rounding hand on. One of them holds
between rounds, and makes another one hold from the reset of a round on; the second one lasts while
column generation solves and scans, and makes the first one hold again when a flight is fixed. Both
may depend on the residual demands. -/

namespace OffshoreFlights.Rounding

variable {L S α : Type} [Scalar α] [Lp.Backend L α] [FlightChooser S α] {p : Problem α}
  {settings : Settings α} {between within : List ℕ → SolverState L α → Prop}

/-- What holds between rounds gives what holds within them, and the other way round. -/
structure Carried (p : Problem α) (settings : Settings α)
    (between within : List ℕ → SolverState L α → Prop) : Prop where
  reset : ∀ residual st, between residual st →
    within residual { st with master := st.master.reset p residual }
  preserved : ∀ residual, residual.length = p.platformCount + 1 →
    ColumnGeneration.Preserved p settings residual (within residual)
  removeUnfit : ∀ residual left st, within residual st →
    between left { st with master := (st.master.removeUnfit left).2 }

namespace Carried

variable (h : Carried p settings between within)

include h

omit [FlightChooser S α] in
theorem passed {r : Rounding L S α} {st : SolverState L α} (hr : r.Consistent p)
    (hbetween : between r.residual r.solver)
    (hst : ColumnGeneration.Passed p settings r.residual r.solver st) : within r.residual st := by
  refine hst.preserves (h.preserved r.residual hr.length) fun master hreset => ?_
  rw [MasterProgram.resetChecked_eq_ok hreset]
  exact h.reset r.residual r.solver hbetween

omit [FlightChooser S α] in
theorem generated {r : Rounding L S α} (hr : r.Consistent p)
    (hbetween : between r.residual r.solver)
    {result : Except (Error α) (ColumnGeneration.Outcome α)} {solver : SolverState L α}
    (hgenerate : ColumnGeneration.generate p settings r.residual r.solver = (result, solver)) :
    within r.residual solver := by
  rw [show solver = (ColumnGeneration.generate p settings r.residual r.solver).2 by rw [hgenerate]]
  have hlength := hr.length
  exact ColumnGeneration.generate_preserves (h.preserved r.residual hlength)
    (fun _ => h.reset r.residual r.solver hbetween) fun hle => by omega

theorem round {r r' : Rounding L S α} (hr : r.Consistent p)
    (hbetween : between r.residual r.solver) (hround : Round p settings r (none, r')) :
    between r'.residual r'.solver := by
  cases hround with
  | fixed hgenerate => exact h.removeUnfit _ _ _ (h.generated hr hbetween hgenerate)

/-- What holds before the first round holds between all rounds. -/
theorem reached {first r : Rounding L S α} (hfirst : first.Consistent p)
    (hbetween : between first.residual first.solver) (hreached : Reached p settings first r) :
    between r.residual r.solver := by
  induction hreached with
  | refl => exact hbetween
  | @next q q' hq _ hround ih =>
    exact h.round (hq.consistent hfirst) ih (hround ▸ round_spec p settings q)

omit [FlightChooser S α] h in
theorem and {between' within' : List ℕ → SolverState L α → Prop}
    (h : Carried p settings between within) (h' : Carried p settings between' within') :
    Carried p settings (fun residual st => between residual st ∧ between' residual st)
      fun residual st => within residual st ∧ within' residual st where
  reset residual st hst := ⟨h.reset residual st hst.1, h'.reset residual st hst.2⟩
  preserved residual hlength := (h.preserved residual hlength).and (h'.preserved residual hlength)
  removeUnfit residual left st hst :=
    ⟨h.removeUnfit residual left st hst.1, h'.removeUnfit residual left st hst.2⟩

end Carried

end OffshoreFlights.Rounding
