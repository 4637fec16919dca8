import OffshoreFlights.Proofs.ColumnGeneration
import OffshoreFlights.Rounding

/-! The rounds of a rounding. Every round either ends it with an error or fixes one flight, and what
column generation and the fixing of a flight preserve holds when the rounding ends. -/

namespace OffshoreFlights.Rounding

variable {L S α : Type} [Scalar α] [Lp.Backend L α] [FlightChooser S α] {p : Problem α}
  {settings : Settings α}

/-- The rounding after the relaxation of a round is solved. -/
def relaxed (r : Rounding L S α) (outcome : ColumnGeneration.Outcome α)
    (solver : SolverState L α) : Rounding L S α :=
  { r with
    solver
    bound := if r.rounds = 0 then outcome.objective else r.bound
    rounds := r.rounds + 1 }

/-- The flights among which a round chooses. -/
def choice (r : Rounding L S α) (outcome : ColumnGeneration.Outcome α) :
    List (FractionalFlight α) :=
  candidates r.residual outcome.flights

/-- What a round can do. -/
inductive Round (p : Problem α) (settings : Settings α) (r : Rounding L S α) :
    Option (Error α) × Rounding L S α → Prop
  | unsolved {e : Error α} {solver : SolverState L α}
    (hgenerate : ColumnGeneration.generate p settings r.residual r.solver = (.error e, solver)) :
    Round p settings r (some e, { r with solver })
  | stalled {outcome : ColumnGeneration.Outcome α} {solver : SolverState L α}
    (hgenerate : ColumnGeneration.generate p settings r.residual r.solver = (.ok outcome, solver))
    (hnone : r.choice outcome = []) :
    Round p settings r (some (.stalled r.remaining), r.relaxed outcome solver)
  | refused {outcome : ColumnGeneration.Outcome α} {solver : SolverState L α} {fault : Fault}
    {chooser : S}
    (hgenerate : ColumnGeneration.generate p settings r.residual r.solver = (.ok outcome, solver))
    (hsome : r.choice outcome ≠ [])
    (hchoose : FlightChooser.choose r.chooser (r.choice outcome) = (.error fault, chooser)) :
    Round p settings r (some (.fault fault), { r.relaxed outcome solver with chooser })
  | noSuchFlight {outcome : ColumnGeneration.Outcome α} {solver : SolverState L α} {index : ℕ}
    {chooser : S}
    (hgenerate : ColumnGeneration.generate p settings r.residual r.solver = (.ok outcome, solver))
    (hsome : r.choice outcome ≠ [])
    (hchoose : FlightChooser.choose r.chooser (r.choice outcome) = (.ok index, chooser))
    (hindex : (r.choice outcome)[index]? = none) :
    Round p settings r (some (.noSuchFlight index (r.choice outcome).length),
      { r.relaxed outcome solver with chooser })
  | fixed {outcome : ColumnGeneration.Outcome α} {solver : SolverState L α} {index : ℕ}
    {chooser : S} {chosen : FractionalFlight α}
    (hgenerate : ColumnGeneration.generate p settings r.residual r.solver = (.ok outcome, solver))
    (hsome : r.choice outcome ≠ [])
    (hchoose : FlightChooser.choose r.chooser (r.choice outcome) = (.ok index, chooser))
    (hindex : (r.choice outcome)[index]? = some chosen) :
    Round p settings r (none, fix settings { r.relaxed outcome solver with chooser } chosen)

theorem round_spec (p : Problem α) (settings : Settings α) (r : Rounding L S α) :
    Round p settings r (r.round p settings) := by
  unfold round
  split
  next e solver hgenerate => exact .unsolved hgenerate
  next outcome solver hgenerate =>
    dsimp only
    split
    next hnone => exact .stalled hgenerate hnone
    next hsome =>
      split
      next fault chooser hchoose => exact .refused hgenerate hsome hchoose
      next index chooser hchoose =>
        split
        next hindex => exact .noSuchFlight hgenerate hsome hchoose hindex
        next chosen hindex => exact .fixed hgenerate hsome hchoose hindex

theorem round_of_choose {r : Rounding L S α} {outcome : ColumnGeneration.Outcome α}
    {solver : SolverState L α} {index : ℕ} {chooser : S} {chosen : FractionalFlight α}
    (hgenerate : ColumnGeneration.generate p settings r.residual r.solver = (.ok outcome, solver))
    (hchoose : FlightChooser.choose r.chooser (r.choice outcome) = (.ok index, chooser))
    (hindex : (r.choice outcome)[index]? = some chosen) : r.round p settings =
      (none, fix settings { r.relaxed outcome solver with chooser } chosen) := by
  have hsome := List.ne_nil_of_mem (List.mem_of_getElem? hindex)
  unfold choice at hchoose hindex hsome
  unfold round
  rw [hgenerate]
  dsimp only
  rw [if_neg hsome, hchoose]
  dsimp only
  rw [hindex]
  rfl

/-- The rounds as an induction: what holds of each way in which they end, and is passed on to the
round before, holds of a run. -/
theorem finish_induction {motive : Rounding L S α → Option (Error α) × Rounding L S α → Prop}
    (done : ∀ r, r.remaining = 0 → motive r (none, r))
    (failed : ∀ r e r', r.remaining ≠ 0 → Round p settings r (some e, r') → motive r (some e, r'))
    (next : ∀ r r' result, r.remaining ≠ 0 → Round p settings r (none, r') → motive r' result →
      motive r result)
    (r : Rounding L S α) : motive r (finish p settings r) := by
  fun_induction finish p settings r with
  | case1 r h => exact done r h
  | case2 r h e r' hround => exact failed r e r' h (hround ▸ round_spec p settings r)
  | case3 r h r' hround ih => exact next r r' _ h (hround ▸ round_spec p settings r) ih

theorem finish_of_remaining_eq_zero {r : Rounding L S α} (h : r.remaining = 0) :
    finish p settings r = (none, r) := by
  rw [finish, dif_pos h]

theorem finish_of_round_eq_some {r r' : Rounding L S α} {e : Error α} (h : r.remaining ≠ 0)
    (hround : r.round p settings = (some e, r')) : finish p settings r = (some e, r') := by
  rw [finish, dif_neg h]
  split
  next heq => rw [hround] at heq; cases heq; rfl
  next heq => rw [hround] at heq; cases heq

theorem finish_of_round_eq_none {r r' : Rounding L S α} (h : r.remaining ≠ 0)
    (hround : r.round p settings = (none, r')) : finish p settings r = finish p settings r' := by
  rw [finish, dif_neg h]
  split
  next e later heq => rw [hround] at heq; cases heq
  next later heq => rw [hround] at heq; cases heq; rfl

/-- A run without an error that has passengers to serve begins with a round without an error. -/
theorem exists_round_of_finish {r final : Rounding L S α} (hremaining : r.remaining ≠ 0)
    (hfinish : finish p settings r = (none, final)) :
    ∃ r', r.round p settings = (none, r') ∧ finish p settings r' = (none, final) := by
  cases hround : r.round p settings with
  | mk error? r' =>
    cases error? with
    | none => exact ⟨r', rfl, (finish_of_round_eq_none hremaining hround).symm.trans hfinish⟩
    | some e =>
      rw [finish_of_round_eq_some hremaining hround] at hfinish
      cases hfinish

/-- The states between the rounds of a run. -/
inductive Reached (p : Problem α) (settings : Settings α) (r : Rounding L S α) :
    Rounding L S α → Prop
  | refl : Reached p settings r r
  | next {q q' : Rounding L S α} (hq : Reached p settings r q) (hremaining : q.remaining ≠ 0)
    (hround : q.round p settings = (none, q')) : Reached p settings r q'

theorem Reached.finish_eq {r q : Rounding L S α} (h : Reached p settings r q) :
    finish p settings r = finish p settings q := by
  induction h with
  | refl => rfl
  | next _ hremaining hround ih => exact ih.trans (finish_of_round_eq_none hremaining hround)

/-! ### What rounds preserve -/

section Solver

variable {P : SolverState L α → Prop}
  (hgenerate : ∀ residual st, P st → P (ColumnGeneration.generate p settings residual st).2)
  (hremove : ∀ residual st, P st → P { st with master := (st.master.removeUnfit residual).2 })

include hgenerate hremove

theorem Round.preserves {r r' : Rounding L S α} {error? : Option (Error α)}
    (h : Round p settings r (error?, r')) (hr : P r.solver) : P r'.solver := by
  have hsolved {result : Except (Error α) (ColumnGeneration.Outcome α)} {solver : SolverState L α}
      (h : ColumnGeneration.generate p settings r.residual r.solver = (result, solver)) :
      P solver := by
    have := hgenerate r.residual r.solver hr
    rwa [h] at this
  cases h with
  | unsolved h | stalled h | refused h | noSuchFlight h => exact hsolved h
  | fixed h => exact hremove _ _ (hsolved h)

theorem wholePlan_preserves {solver : SolverState L α} (hsolver : P solver) (chooser : S) :
    P (wholePlan p settings solver chooser).2.1 := by
  have hfinish : ∀ r : Rounding L S α, P r.solver → P (finish p settings r).2.solver :=
    finish_induction (motive := fun r result => P r.solver → P result.2.solver)
      (fun r _ hr => hr)
      (fun r e r' _ hround hr => hround.preserves hgenerate hremove hr)
      (fun r r' result _ hround ih hr => ih (hround.preserves hgenerate hremove hr))
  exact hfinish (start p solver chooser) hsolver

end Solver

theorem wholePlan_eq_ok {solver : SolverState L α} {chooser : S} {whole : WholePlan α} :
    (wholePlan p settings solver chooser).1 = .ok whole ↔
      ∃ r, finish p settings (start p solver chooser) = (none, r) ∧
        whole = ⟨r.plan, r.bound, r.rounds⟩ := by
  unfold wholePlan
  generalize finish p settings (start p solver chooser) = result
  constructor
  · match result with
    | (none, r) => exact fun h => ⟨r, rfl, (Except.ok.inj h).symm⟩
    | (some e, r) => rintro ⟨⟩
  · rintro ⟨r, rfl, rfl⟩
    rfl

/-- What every round without an error preserves holds at the end, when nobody is left. -/
theorem finish_of_preserved {P : Rounding L S α → Prop}
    (hround : ∀ r r', r.remaining ≠ 0 → Round p settings r (none, r') → P r → P r')
    {r final : Rounding L S α} (hr : P r) (hfinish : finish p settings r = (none, final)) :
    P final ∧ final.remaining = 0 := by
  revert hr hfinish
  refine finish_induction (motive := fun r result => P r → result = (none, final) →
    P final ∧ final.remaining = 0) ?_ ?_ ?_ r
  · rintro r hdone hr hfinish
    obtain ⟨-, rfl⟩ := Prod.mk.inj hfinish
    exact ⟨hr, hdone⟩
  · rintro r e r' _ _ _ ⟨⟩
  · exact fun r r' result hremaining hstep ih hr => ih (hround r r' hremaining hstep hr)

end OffshoreFlights.Rounding
