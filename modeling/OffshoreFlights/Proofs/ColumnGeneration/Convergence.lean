import OffshoreFlights.Proofs.ColumnGeneration.Ends
import OffshoreFlights.Proofs.Pricing.Exhaustion
import OffshoreFlights.Proofs.RangeLimit
import OffshoreFlights.Proofs.Relaxation

/-! What it means that column generation has converged. The last scan added nothing; if it was
allowed to add anything, it went through all sets of platforms that it did not turn back from, and
none of them had an itinerary to offer. -/

namespace OffshoreFlights

namespace ColumnGeneration

variable {L α : Type} [Scalar α] [Lp.Backend L α] {p : Problem α} {settings : Settings α}
  {residual : List ℕ} {state final : SolverState L α}

/-- Whatever the backend answers, column generation that may add itineraries converges on a complete
scan over the platforms where somebody waits. -/
theorem complete_of_converged (hcolumns : 1 ≤ settings.columnsPerIteration) {outcome : Outcome α}
    (hrun : generate p settings residual state = (.ok outcome, final))
    (hending : outcome.ending = .converged) :
    ∃ (g : ColumnGeneration L α) (master : MasterProgram L α),
      Due p settings residual state g ∧ g.iterations + 1 = outcome.iterations ∧
      g.state.master.solve = (.ok (), master) ∧
      (g.terms p settings residual master).candidates.Perm (candidates p residual) ∧
      (g.terms p settings residual master).Complete { g.state with master } ∧
      (g.scanAfter p settings residual master).state = final := by
  obtain ⟨-, hrefused⟩ | ⟨g, hdue, -, hends⟩ := generate_ends p settings residual state
  · rw [hrefused] at hrun
    cases hrun
  · rw [hrun] at hends
    cases hends with
    | @converged master hsolve hidle =>
      exact ⟨g, master, hdue, rfl, hsolve, (List.mergeSort_perm _ _).trans hdue.order,
        Pricing.Terms.complete_of_idle hcolumns hidle, rfl⟩
    | limitReached => cases hending

end ColumnGeneration

namespace OddCrew

open Problem (oddCrew)

/-- The first scan adds an itinerary. The second one, which is complete, adds none. -/
theorem complete_of_converged_oddCrew : ∃ outcome final,
    ColumnGeneration.generate oddCrew settings [0, 1, 2] ⟨.start lp, .empty⟩ =
        (.ok outcome, final) ∧
      outcome.ending = .converged ∧ outcome.iterations = 2 ∧ outcome.columnsAdded = 1 ∧
      ∃ g master, ColumnGeneration.Due oddCrew settings [0, 1, 2] ⟨.start lp, .empty⟩ g ∧
        g.iterations + 1 = outcome.iterations ∧ g.state.master.solve = (.ok (), master) ∧
        (g.terms oddCrew settings [0, 1, 2] master).candidates.Perm
          (ColumnGeneration.candidates oddCrew [0, 1, 2]) ∧
        (g.terms oddCrew settings [0, 1, 2] master).Complete { g.state with master } ∧
        (g.scanAfter oddCrew settings [0, 1, 2] master).state = final := by
  obtain ⟨memory, hrun⟩ := converges
  exact ⟨_, _, hrun, rfl, rfl, rfl,
    ColumnGeneration.complete_of_converged (le_refl 1) hrun rfl⟩

end OddCrew

/-! ### Scans that may add nothing

Where no itinerary may be added, a scan looks at no set at all, and column generation converges on
it all the same. -/

namespace Pricing.Terms

variable {L α : Type} [Scalar α] [Lp.Backend L α] {t : Terms α} {state : SolverState L α}

theorem scan_of_no_columns (h : t.settings.columnsPerIteration = 0) :
    t.scan state = ⟨.start t.candidates.length, true, 0, state⟩ := by
  unfold scan
  dsimp only
  cases SubsetWalk.stepBound t.candidates.length with
  | zero => rfl
  | succ steps => rw [scanFrom_succ, h, if_neg (Nat.not_lt_zero 0)]

theorem not_scanPrices_of_no_columns (h : t.settings.columnsPerIteration = 0) (stops : List ℕ)
    (length : α) : ¬t.ScanPrices state stops length := by
  intro hprices
  unfold ScanPrices at hprices
  generalize SubsetWalk.stepBound t.candidates.length = steps at hprices
  cases hprices with
  | now hmore | later hmore => exact absurd (h ▸ hmore) (Nat.not_lt_zero 0)

end Pricing.Terms

/-- Two platforms that are closer to each other than to the depot. -/
def Problem.neighbours : Problem ℚ where
  platforms := [.depot, ⟨1, 0, 0, 1⟩, ⟨2, 0, 0, 1⟩]
  distances := ⟨3, #[0, 2, 2, 2, 0, 1, 2, 1, 0], rfl⟩
  capacity := 2
  range := 6
  sound := by decide +kernel

namespace Neighbours

open Problem (neighbours)

def settings : Settings ℚ := ⟨1, 0, 0, 1, 1⟩

def answers : List (Lp.Answer ℚ) := [.solution 8 [1, 1] [4, 4]]

def opening : ColumnGeneration (Lp.Scripted ℚ) ℚ := .opening neighbours answers .empty

def master : MasterProgram (Lp.Scripted ℚ) ℚ := opening.state.master.solve.2

def terms : Pricing.Terms ℚ := ⟨neighbours, settings, [0, 1, 1], [0, 4, 4], [1, 2]⟩

theorem terms_eq : opening.terms neighbours settings neighbours.demands master = terms :=
  ColumnGeneration.terms_of_pairwise (by decide +kernel)

theorem optimum_pair : neighbours.optimum {1, 2} = 5 := by
  rw [Problem.optimum, Tour.optimum_pair (by decide)]
  decide +kernel

/-- A flight to both platforms would take 5 units where two flights take 8. It is within the range,
it earns more than it costs, and it is not in the master program. Column generation reports that it
has converged, after a scan that has not looked at a single set. -/
theorem converges_unscanned : ∃ outcome final,
    ColumnGeneration.generate neighbours settings neighbours.demands
        (.scripted neighbours answers .empty) = (.ok outcome, final) ∧
      outcome.ending = .converged ∧ outcome.iterations = 1 ∧ outcome.objective = 8 ∧
      ColumnGeneration.Due neighbours settings neighbours.demands
        (.scripted neighbours answers .empty) opening ∧
      opening.state.master.solve = (.ok (), master) ∧
      (∀ stops length, ¬(opening.terms neighbours settings neighbours.demands master).ScanPrices
        { opening.state with master } stops length) ∧
      neighbours.optimum {1, 2} = 5 ∧
      terms.improves (terms.itinerary [1, 2] 5) = true ∧
      master.contains (terms.itinerary [1, 2] 5) = false ∧
      ¬(opening.terms neighbours settings neighbours.demands master).Complete
        { opening.state with master } := by
  have hunpriced : ∀ stops length,
      ¬(opening.terms neighbours settings neighbours.demands master).ScanPrices
        { opening.state with master } stops length :=
    Pricing.Terms.not_scanPrices_of_no_columns rfl
  have hscan : opening.scanAfter neighbours settings neighbours.demands master =
      ⟨_, true, 0, { opening.state with master }⟩ := Pricing.Terms.scan_of_no_columns rfl
  have hunknown : master.contains (terms.itinerary [1, 2] 5) = false :=
    (MasterProgram.catalogued_reset _ _ _).contains_eq_false (m := master) (by decide +kernel)
  have hidle : (opening.scanAfter neighbours settings neighbours.demands master).added = 0 := by
    rw [hscan]
  rw [ColumnGeneration.generate_of_lt_length (by decide)]
  refine ⟨_, _, ColumnGeneration.iterate_of_idle rfl hidle, rfl, rfl, ?_,
    ColumnGeneration.due_opening _ _ _ _, rfl, hunpriced, optimum_pair, by decide +kernel, hunknown,
    fun hcomplete => ?_⟩
  · show MasterProgram.objective
      (opening.scanAfter neighbours settings neighbours.demands master).state.master = 8
    rw [hscan]
    rfl
  · have hfirst :
        [1].Sublist (opening.terms neighbours settings neighbours.demands master).candidates := by
      rw [terms_eq]
      exact List.singleton_sublist.mpr List.mem_cons_self
    obtain ⟨length, hlength⟩ := hcomplete.priced [1] (List.cons_ne_nil 1 []) hfirst
      fun begun _ _ length hprices => absurd hprices (hunpriced begun length)
    exact hunpriced [1] length hlength

end Neighbours

end OffshoreFlights
