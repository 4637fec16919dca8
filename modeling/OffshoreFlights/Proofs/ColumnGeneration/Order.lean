import OffshoreFlights.Proofs.Pricing.Order
import OffshoreFlights.Proofs.Pricing.Yield
import OffshoreFlights.Proofs.RangeLimit

/-! The order in which an iteration takes the platforms, and what it adds. Both are determined by
the dual values, the master program, the memory, and how the platforms that are worth the same stood
before. How they stood is left over from the iterations before, so these cannot be forgotten: the
same dual values, master program and memory can be reached in two ways after which different
itineraries are added. -/

namespace OffshoreFlights

namespace ColumnGeneration

variable {L M α : Type} [Scalar α] [Lp.Backend L α] [Lp.Backend M α] {p : Problem α}
  {settings : Settings α} {residual : List ℕ} {state : SolverState L α} {state' : SolverState M α}
  {g : ColumnGeneration L α} {g' : ColumnGeneration M α}

theorem Due.catalogued (h : Due p settings residual state g) {master : MasterProgram L α}
    (hsolve : g.state.master.solve = (.ok (), master)) : master.Catalogued := by
  refine (preserved_catalogued p settings residual).solved hsolve (h.preserves
    (preserved_catalogued p settings residual) fun master hmaster => ?_)
  rw [MasterProgram.resetChecked_eq_ok hmaster]
  exact MasterProgram.catalogued_reset _ p residual

variable [Std.TransCmp (Scalar.compareTotal (α := α))]

/-- Two iterations of any two runs, at the same dual values, with the same itineraries in the master
program and the same facts in memory. If the platforms that are worth the same stood in the same
order before, both take the platforms in the same order and add the same itineraries in turn. -/
theorem Due.scan_alike (h : Due p settings residual state g)
    (h' : Due p settings residual state' g')
    {master : MasterProgram L α} {master' : MasterProgram M α}
    (hsolve : g.state.master.solve = (.ok (), master))
    (hsolve' : g'.state.master.solve = (.ok (), master')) (hduals : master.duals = master'.duals)
    (hitineraries : master.itineraries = master'.itineraries)
    (hmemory : ∀ key, g.state.memory.get? key = g'.state.memory.get? key)
    (hties : ∀ i ∈ candidates p residual, ∀ j ∈ candidates p residual,
      Scalar.compareTotal (master.duals.getD i 0) (master.duals.getD j 0) = .eq →
        ([i, j].Sublist g.order ↔ [i, j].Sublist g'.order)) :
    g.terms p settings residual master = g'.terms p settings residual master' ∧
      ∃ added : List (Itinerary α),
        (g.scanAfter p settings residual master).state.master.itineraries =
            master.itineraries ++ added ∧
          (g'.scanAfter p settings residual master').state.master.itineraries =
            master'.itineraries ++ added ∧
          (g.scanAfter p settings residual master).added = added.length ∧
          (g'.scanAfter p settings residual master').added = added.length := by
  have hterms : g.terms p settings residual master = g'.terms p settings residual master' := by
    rw [terms, terms, ← hduals, Pricing.byFallingDual_congr
      (h.order.nodup_iff.mpr (nodup_candidates p residual)) (h'.order.trans h.order.symm)
      fun i hi j hj => hties i (h.order.subset hi) j (h.order.subset hj)]
  have hyield : (g.terms p settings residual master).yield { g.state with master } =
      (g.terms p settings residual master).yield { g'.state with master := master' } :=
    Pricing.Terms.yield_congr hmemory
      ((h.catalogued hsolve).contains_congr (h'.catalogued hsolve') hitineraries)
  obtain ⟨hadded, -, hscan⟩ := Pricing.Terms.scan_adds_yield
    (wellFormed_terms h.order master) { g.state with master }
  obtain ⟨hadded', -, hscan'⟩ := Pricing.Terms.scan_adds_yield
    (wellFormed_terms h'.order master') { g'.state with master := master' }
  rw [Nat.zero_add] at hadded hadded'
  rw [← hterms, ← hyield] at hadded' hscan'
  refine ⟨hterms, _, hscan, ?_, hadded, ?_⟩
  · rw [scanAfter, ← hterms]
    exact hscan'
  · rw [scanAfter, ← hterms]
    exact hadded'

end ColumnGeneration

/-! ### Left over -/

namespace MasterProgram

variable {m : MasterProgram (Lp.Scripted ℚ) ℚ}

section Solution

variable {objective : ℚ} {primal duals : List ℚ} {later : List (Lp.Answer ℚ)}
  (h : m.lp.answers = .solution objective primal duals :: later)

include h

/-- A solution given in advance becomes the last solution, and nothing else changes. -/
theorem solve_scripted : m.solve = (.ok (), { m with
    lp := { m.lp with answers := later, objective := objective, primal, duals } }) := by
  unfold solve
  simp only [Lp.Backend.solve, Lp.Scripted.solve, h]

theorem itineraries_solve_scripted : m.solve.2.itineraries = m.itineraries := by
  rw [solve_scripted h]

theorem basisSize_solve_scripted : m.solve.2.basisSize = m.basisSize := by
  rw [solve_scripted h]

theorem answers_solve_scripted : m.solve.2.lp.answers = later := by
  rw [solve_scripted h]

theorem duals_solve_scripted :
    m.solve.2.duals = 0 :: (List.range m.basisSize).map fun i => duals.getD i 0 := by
  rw [solve_scripted h]
  rfl

end Solution

theorem solve_scripted_failure {reason : String} {later : List (Lp.Answer ℚ)}
    (h : m.lp.answers = .failure reason :: later) :
    m.solve = (.error (.lp (.other reason)), { m with lp := { m.lp with answers := later } }) := by
  unfold solve
  simp only [Lp.Backend.solve, Lp.Scripted.solve, h]

theorem answers_reset (p : Problem ℚ) (residual : List ℕ) :
    (m.reset p residual).lp.answers = m.lp.answers := by
  refine reset_induction (P := fun m' : MasterProgram (Lp.Scripted ℚ) ℚ =>
    m'.lp.answers = m.lp.answers) (fun m' j hm' => ?_) (fun _ hm' => hm') rfl
  unfold resetRow
  split <;> exact hm'

end MasterProgram

/-- Three platforms, of which the first two can come to be worth the same. -/
def Problem.rivals : Problem ℚ where
  platforms := [.depot, ⟨1, 0, 0, 2⟩, ⟨2, 0, 0, 2⟩, ⟨3, 0, 0, 2⟩]
  distances := ⟨4, #[0, 4, 5, 5, 4, 0, 3, 3, 5, 3, 0, 3, 5, 3, 3, 0], rfl⟩
  capacity := 3
  range := 20
  sound := by decide +kernel

namespace Rivals

open Problem (rivals)

/-! The first scan takes the platforms in the order 2, 3, 1 and adds a flight to the first two. Then
the same run goes on; or it fails, and another run goes on from its master program and memory. Both
are told the same dual values next, but only one still has platform 2 before platform 1. -/

theorem symmetric : rivals.Symmetric := by decide

def settings : Settings ℚ := ⟨2, 1, 0, 1, 1⟩

def early : Lp.Answer ℚ := .solution 28 [1, 1, 1] [4, 5, 5]

def failure : Lp.Answer ℚ := .failure "no progress"

def late (duals : List ℚ) : Lp.Answer ℚ := .solution 26 [1, 0, 1 / 2, 1] duals

/-! The first iteration, whatever the answers after its own are. -/

section First

variable (later : List (Lp.Answer ℚ))

def opening : ColumnGeneration (Lp.Scripted ℚ) ℚ := .opening rivals (early :: later) .empty

def solved : MasterProgram (Lp.Scripted ℚ) ℚ := (opening later).state.master.solve.2

def earlyTerms : Pricing.Terms ℚ := ⟨rivals, settings, [0, 2, 2, 2], [0, 4, 5, 5], [2, 3, 1]⟩

theorem terms_opening :
    (opening later).terms rivals settings rivals.demands (solved later) = earlyTerms := by
  have horder : Pricing.byFallingDual (α := ℚ) [0, 4, 5, 5] [1, 2, 3] = [2, 3, 1] :=
    Pricing.byFallingDual_eq (by decide) (by decide) (by decide)
  show (⟨rivals, settings, [0, 2, 2, 2], [0, 4, 5, 5],
    Pricing.byFallingDual [0, 4, 5, 5] [1, 2, 3]⟩ : Pricing.Terms ℚ) = _
  rw [horder]
  rfl

theorem optimum_two : rivals.optimum {2} = 10 := by
  rw [Problem.optimum, Tour.optimum_singleton]
  norm_num [Problem.distance, DistanceTable.distance, rivals]

theorem optimum_two_three : rivals.optimum {2, 3} = 13 := by
  rw [Problem.optimum, Tour.optimum_pair (by decide)]
  norm_num [Problem.distance, DistanceTable.distance, rivals]

def first : Itinerary ℚ := earlyTerms.itinerary [2, 3] 13

theorem pairs_early : earlyTerms.Pairs .empty 2 3 [1] first :=
  Pricing.Terms.pairs_of_filledFrom (t := earlyTerms) symmetric (by decide) rfl Nat.one_pos
    ⟨by decide, by decide⟩ optimum_two optimum_two_three (by decide) (by decide)
    (by decide +kernel) (by decide) (by decide +kernel) .empty

/-- The memory after the first scan. -/
def asked : TourMemory ℚ := (earlyTerms.ask (earlyTerms.ask .empty [2]).2 [2, 3]).2

theorem filledFrom_asked : asked.FilledFrom rivals :=
  .ask _ (.ask _ .empty ⟨by decide, by decide⟩) ⟨by decide, by decide⟩

theorem answers_opening : (opening later).state.master.lp.answers = early :: later :=
  MasterProgram.answers_reset rivals rivals.demands

theorem answers_solved : (solved later).lp.answers = later :=
  MasterProgram.answers_solve_scripted (answers_opening later)

theorem basisSize_solved : (solved later).basisSize = 3 :=
  (MasterProgram.basisSize_solve_scripted (answers_opening later)).trans
    (MasterProgram.basisSize_reset rivals rivals.demands
      (SolverState.scripted rivals (early :: later) .empty).master)

theorem itineraries_solved :
    (solved later).itineraries = MasterProgram.basis rivals rivals.demands :=
  calc (solved later).itineraries
      = (opening later).state.master.itineraries :=
        MasterProgram.itineraries_solve_scripted (answers_opening later)
    _ = MasterProgram.basis rivals rivals.demands ++ [] :=
        MasterProgram.itineraries_reset rivals rivals.demands
          (SolverState.scripted rivals (early :: later) .empty).master
    _ = MasterProgram.basis rivals rivals.demands := List.append_nil _

theorem unknown_first : (solved later).contains first = false := by
  refine (MasterProgram.catalogued_reset _ _ _).contains_eq_false (m := solved later) ?_
  rw [itineraries_solved]
  decide

theorem scan_opening : ∃ walk extend,
    (opening later).scanAfter rivals settings rivals.demands (solved later) =
      ⟨walk, extend, 1, ⟨(solved later).append first, asked⟩⟩ := by
  have hpairs : earlyTerms.Pairs (⟨solved later, .empty⟩ : SolverState _ ℚ).memory 2 3 [1] first :=
    pairs_early
  obtain ⟨walk, extend, hscan⟩ := hpairs.scan rfl (unknown_first later)
  refine ⟨walk, extend, ?_⟩
  rw [MasterProgram.add_of_not_contains (unknown_first later)] at hscan
  rw [ColumnGeneration.scanAfter, terms_opening]
  exact hscan

theorem added_opening :
    ((opening later).scanAfter rivals settings rivals.demands (solved later)).added ≠ 0 := by
  obtain ⟨walk, extend, hscan⟩ := scan_opening later
  rw [hscan]
  exact one_ne_zero

/-- Column generation after the first iteration. -/
def second : ColumnGeneration (Lp.Scripted ℚ) ℚ :=
  ⟨1, 1, [2, 3, 1], ⟨(solved later).append first, asked⟩⟩

theorem iterated_opening :
    (opening later).iterated rivals settings rivals.demands (solved later) = second later := by
  obtain ⟨walk, extend, hscan⟩ := scan_opening later
  rw [ColumnGeneration.iterated, hscan, terms_opening]
  rfl

theorem due_second : ColumnGeneration.Due rivals settings rivals.demands
    (.scripted rivals (early :: later) .empty) (second later) := by
  rw [← iterated_opening]
  exact (ColumnGeneration.due_opening rivals settings (early :: later) .empty).next rfl
    (added_opening later)

/-- What a run leaves that fails to solve the master program for the second time. -/
def failed : SolverState (Lp.Scripted ℚ) ℚ :=
  ⟨((solved (failure :: later)).append first).solve.2, asked⟩

theorem generate_failed : ColumnGeneration.generate rivals settings rivals.demands
    (.scripted rivals (early :: failure :: later) .empty) =
      (.error (.lp (.other "no progress")), failed later) := by
  rw [ColumnGeneration.generate_of_lt_length (by decide)]
  show ColumnGeneration.iterate rivals settings rivals.demands 1 (opening (failure :: later)) = _
  rw [ColumnGeneration.iterate_succ rfl (added_opening (failure :: later)), iterated_opening]
  exact ColumnGeneration.iterate_of_error rfl

/-- Column generation from there, before its first iteration. -/
def anew : ColumnGeneration (Lp.Scripted ℚ) ℚ :=
  .start rivals rivals.demands
    { failed later with master := (failed later).master.reset rivals rivals.demands }

theorem memory_second : (second later).state.memory = asked := rfl

theorem memory_anew : (anew later).state.memory = asked := rfl

theorem due_anew :
    ColumnGeneration.Due rivals settings rivals.demands (failed later) (anew later) :=
  .start (MasterProgram.resetChecked_of_lt (by decide))

end First

/-! The same dual values for both. -/

section Second

variable (duals : List ℚ)

def kept : MasterProgram (Lp.Scripted ℚ) ℚ := (second [late duals]).state.master.solve.2

def rebuilt : MasterProgram (Lp.Scripted ℚ) ℚ := (anew [late duals]).state.master.solve.2

theorem answers_second : (second [late duals]).state.master.lp.answers = [late duals] :=
  answers_solved [late duals]

theorem solve_failed : (failed [late duals]).master =
    { (solved [failure, late duals]).append first with
      lp := { ((solved [failure, late duals]).append first).lp with answers := [late duals] } } :=
  congrArg Prod.snd (MasterProgram.solve_scripted_failure
    (m := (solved [failure, late duals]).append first) (answers_solved [failure, late duals]))

theorem itineraries_failed : (failed [late duals]).master.itineraries =
    MasterProgram.basis rivals rivals.demands ++ [first] := by
  rw [solve_failed]
  exact congrArg (· ++ [first]) (itineraries_solved [failure, late duals])

theorem basisSize_failed : (failed [late duals]).master.basisSize = 3 := by
  rw [solve_failed]
  exact basisSize_solved [failure, late duals]

theorem master_anew : (anew [late duals]).state.master =
    (failed [late duals]).master.reset rivals rivals.demands := rfl

theorem answers_anew : (anew [late duals]).state.master.lp.answers = [late duals] := by
  rw [master_anew, MasterProgram.answers_reset, solve_failed]

theorem solve_second : (second [late duals]).state.master.solve = (.ok (), kept duals) := by
  rw [kept, MasterProgram.solve_scripted (answers_second duals)]

theorem solve_anew : (anew [late duals]).state.master.solve = (.ok (), rebuilt duals) := by
  rw [rebuilt, MasterProgram.solve_scripted (answers_anew duals)]

theorem duals_kept : (kept duals).duals = 0 :: (List.range 3).map fun i => duals.getD i 0 := by
  rw [kept, MasterProgram.duals_solve_scripted (answers_second duals)]
  exact congrArg (fun n => 0 :: (List.range n).map fun i => duals.getD i 0)
    (basisSize_solved [late duals])

theorem duals_rebuilt :
    (rebuilt duals).duals = 0 :: (List.range 3).map fun i => duals.getD i 0 := by
  rw [rebuilt, MasterProgram.duals_solve_scripted (answers_anew duals), master_anew,
    MasterProgram.basisSize_reset, basisSize_failed]

theorem itineraries_kept :
    (kept duals).itineraries = MasterProgram.basis rivals rivals.demands ++ [first] := by
  rw [kept, MasterProgram.itineraries_solve_scripted (answers_second duals)]
  exact congrArg (· ++ [first]) (itineraries_solved [late duals])

theorem itineraries_rebuilt :
    (rebuilt duals).itineraries = MasterProgram.basis rivals rivals.demands ++ [first] := by
  rw [rebuilt, MasterProgram.itineraries_solve_scripted (answers_anew duals), master_anew,
    MasterProgram.itineraries_reset, itineraries_failed,
    List.drop_left' (MasterProgram.length_basis rivals rivals.demands)]

end Second

/-- Where the dual values of both platforms differ, it is of no account which stood first. -/
theorem scan_alike_rivals : ∃ added : List (Itinerary ℚ),
    ((second [late [3, 4, 5]]).scanAfter rivals settings rivals.demands
        (kept [3, 4, 5])).state.master.itineraries = (kept [3, 4, 5]).itineraries ++ added ∧
      ((anew [late [3, 4, 5]]).scanAfter rivals settings rivals.demands
        (rebuilt [3, 4, 5])).state.master.itineraries =
          (rebuilt [3, 4, 5]).itineraries ++ added := by
  obtain ⟨-, added, hkept, hrebuilt, -, -⟩ := (due_second [late [3, 4, 5]]).scan_alike
    (due_anew [late [3, 4, 5]]) (solve_second [3, 4, 5]) (solve_anew [3, 4, 5])
    ((duals_kept [3, 4, 5]).trans (duals_rebuilt [3, 4, 5]).symm)
    ((itineraries_kept [3, 4, 5]).trans (itineraries_rebuilt [3, 4, 5]).symm)
    (fun key => by rw [memory_second, memory_anew]) (by
      rw [duals_kept]
      decide)
  exact ⟨added, hkept, hrebuilt⟩

/-! Dual values at which platforms 1 and 2 are worth the same. With them the solution is optimal. -/

def tied : List ℚ := [4, 4, 5]

def lateTerms (order : List ℕ) : Pricing.Terms ℚ :=
  ⟨rivals, settings, [0, 2, 2, 2], [0, 4, 4, 5], order⟩

theorem terms_second : (second [late tied]).terms rivals settings rivals.demands (kept tied) =
    lateTerms [3, 2, 1] := by
  have horder : Pricing.byFallingDual (α := ℚ) [0, 4, 4, 5] [2, 3, 1] = [3, 2, 1] :=
    Pricing.byFallingDual_eq (by decide) (by decide) (by decide)
  rw [ColumnGeneration.terms, duals_kept]
  exact congrArg (Pricing.Terms.mk rivals settings [0, 2, 2, 2] [0, 4, 4, 5]) horder

theorem terms_anew : (anew [late tied]).terms rivals settings rivals.demands (rebuilt tied) =
    lateTerms [3, 1, 2] := by
  have horder : Pricing.byFallingDual (α := ℚ) [0, 4, 4, 5] [1, 2, 3] = [3, 1, 2] :=
    Pricing.byFallingDual_eq (by decide) (by decide) (by decide)
  rw [ColumnGeneration.terms, duals_rebuilt]
  exact congrArg (Pricing.Terms.mk rivals settings [0, 2, 2, 2] [0, 4, 4, 5]) horder

theorem optimum_three : rivals.optimum {3} = 10 := by
  rw [Problem.optimum, Tour.optimum_singleton]
  norm_num [Problem.distance, DistanceTable.distance, rivals]

theorem optimum_three_two : rivals.optimum {3, 2} = 13 := by
  rw [Finset.pair_comm, optimum_two_three]

theorem optimum_three_one : rivals.optimum {3, 1} = 12 := by
  rw [Problem.optimum, Tour.optimum_pair (by decide)]
  norm_num [Problem.distance, DistanceTable.distance, rivals]

theorem pairs_second : (lateTerms [3, 2, 1]).Pairs asked 3 2 [1] ⟨[3, 2], 13, [0, 0, 1, 2]⟩ :=
  Pricing.Terms.pairs_of_filledFrom (t := lateTerms [3, 2, 1]) symmetric (by decide) rfl
    Nat.one_pos ⟨by decide, by decide⟩ optimum_three optimum_three_two (by decide)
    (by decide +kernel) (by decide +kernel) (by decide) (by decide +kernel) filledFrom_asked

theorem pairs_anew : (lateTerms [3, 1, 2]).Pairs asked 3 1 [2] ⟨[3, 1], 12, [0, 1, 0, 2]⟩ :=
  Pricing.Terms.pairs_of_filledFrom (t := lateTerms [3, 1, 2]) symmetric (by decide) rfl
    Nat.one_pos ⟨by decide, by decide⟩ optimum_three optimum_three_one (by decide)
    (by decide +kernel) (by decide +kernel) (by decide) (by decide +kernel) filledFrom_asked

theorem itineraries_of_pairs {g : ColumnGeneration (Lp.Scripted ℚ) ℚ}
    {state : SolverState (Lp.Scripted ℚ) ℚ} {master : MasterProgram (Lp.Scripted ℚ) ℚ}
    {order : List ℕ} {i j : ℕ} {rest : List ℕ} {it : Itinerary ℚ}
    (hdue : ColumnGeneration.Due rivals settings rivals.demands state g)
    (hsolve : g.state.master.solve = (.ok (), master))
    (hterms : g.terms rivals settings rivals.demands master = lateTerms order)
    (hmemory : g.state.memory = asked) (hpairs : (lateTerms order).Pairs asked i j rest it)
    (hnew : ∀ held ∈ master.itineraries, held.allocation ≠ it.allocation) :
    (g.scanAfter rivals settings rivals.demands master).state.master.itineraries =
      master.itineraries ++ [it] := by
  have hunknown := (hdue.catalogued hsolve).contains_eq_false hnew
  have hpairs : (lateTerms order).Pairs ({ g.state with master } : SolverState _ ℚ).memory
    i j rest it := hmemory ▸ hpairs
  obtain ⟨walk, extend, hscan⟩ := hpairs.scan rfl hunknown
  rw [ColumnGeneration.scanAfter, hterms, hscan, MasterProgram.add_of_not_contains hunknown]

/-- Two iterations at the same dual values, with the same itineraries and the same memory, take the
platforms in different orders and add different flights. -/
theorem scans_differ :
    ColumnGeneration.generate rivals settings rivals.demands
        (.scripted rivals [early, failure, late tied] .empty) =
          (.error (.lp (.other "no progress")), failed [late tied]) ∧
      ColumnGeneration.Due rivals settings rivals.demands
        (.scripted rivals [early, late tied] .empty) (second [late tied]) ∧
      ColumnGeneration.Due rivals settings rivals.demands (failed [late tied])
        (anew [late tied]) ∧
      (second [late tied]).state.master.solve = (.ok (), kept tied) ∧
      (anew [late tied]).state.master.solve = (.ok (), rebuilt tied) ∧
      (kept tied).duals = (rebuilt tied).duals ∧
      (kept tied).itineraries = (rebuilt tied).itineraries ∧
      (second [late tied]).state.memory = (anew [late tied]).state.memory ∧
      ((second [late tied]).terms rivals settings rivals.demands (kept tied)).candidates =
        [3, 2, 1] ∧
      ((anew [late tied]).terms rivals settings rivals.demands (rebuilt tied)).candidates =
        [3, 1, 2] ∧
      ((second [late tied]).scanAfter rivals settings rivals.demands
        (kept tied)).state.master.itineraries =
          (kept tied).itineraries ++ [⟨[3, 2], 13, [0, 0, 1, 2]⟩] ∧
      ((anew [late tied]).scanAfter rivals settings rivals.demands
        (rebuilt tied)).state.master.itineraries =
          (rebuilt tied).itineraries ++ [⟨[3, 1], 12, [0, 1, 0, 2]⟩] := by
  refine ⟨generate_failed [late tied], due_second [late tied], due_anew [late tied],
    solve_second tied, solve_anew tied, (duals_kept tied).trans (duals_rebuilt tied).symm,
    (itineraries_kept tied).trans (itineraries_rebuilt tied).symm,
    (memory_second [late tied]).trans (memory_anew [late tied]).symm, ?_, ?_, ?_, ?_⟩
  · rw [terms_second]
    rfl
  · rw [terms_anew]
    rfl
  · refine itineraries_of_pairs (due_second _) (solve_second tied) terms_second
      (memory_second _) pairs_second ?_
    rw [itineraries_kept]
    decide
  · refine itineraries_of_pairs (due_anew _) (solve_anew tied) terms_anew (memory_anew _)
      pairs_anew ?_
    rw [itineraries_rebuilt]
    decide

end Rivals

end OffshoreFlights
