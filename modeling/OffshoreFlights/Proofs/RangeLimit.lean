import OffshoreFlights.Proofs.ColumnGeneration.Pairs
import OffshoreFlights.Proofs.Problem.StraightLine
import OffshoreFlights.Proofs.Tour.Recall

/-! The range limit in column generation. With slack, the itineraries that it adds are within the
range and have their true lengths. A set of platforms that it refuses to extend has no extension
within the range, as long as no detour is a short cut. -/

namespace OffshoreFlights

variable {K L : Type} [Field K] [LinearOrder K] [FloorRing K] [IsStrictOrderedRing K]
  [Lp.Backend L K]

namespace ColumnGeneration

variable {p : Problem K} {settings : Settings K} {residual : List ℕ} {state : SolverState L K}
  {g : ColumnGeneration L K}

theorem Due.sound (h : Due p settings residual state g) (hsymm : p.Symmetric)
    (hmemory : state.memory.FilledFrom p) : g.state.memory.Sound p :=
  (h.preserves (preserved_filledFrom p settings residual) fun _ _ => hmemory).sound hsymm

end ColumnGeneration

/-- A backend that reports given solutions, and no columns yet. -/
def SolverState.scripted (p : Problem ℚ) (answers : List (Lp.Answer ℚ)) (memory : TourMemory ℚ) :
    SolverState (Lp.Scripted ℚ) ℚ :=
  ⟨.start (.start p.platformCount answers), memory⟩

/-- Column generation before its first iteration, with such a backend. -/
def ColumnGeneration.opening (p : Problem ℚ) (answers : List (Lp.Answer ℚ))
    (memory : TourMemory ℚ) : ColumnGeneration (Lp.Scripted ℚ) ℚ :=
  start p p.demands { SolverState.scripted p answers memory with
    master := (SolverState.scripted p answers memory).master.reset p p.demands }

namespace ColumnGeneration

theorem due_opening (p : Problem ℚ) (settings : Settings ℚ) (answers : List (Lp.Answer ℚ))
    (memory : TourMemory ℚ) :
    Due p settings p.demands (.scripted p answers memory) (opening p answers memory) :=
  .start (MasterProgram.resetChecked_of_lt (by simp))

variable {p : Problem K} {settings : Settings K} {residual : List ℕ} {state : SolverState L K}
  {g : ColumnGeneration L K}

/-- The scan of an iteration adds itineraries behind those present. Each has the length of the
shortest tour through its platforms, but no more than the range; with slack, this is the length of
the shortest tour itself. -/
theorem Due.adds_limited (h : Due p settings residual state g) (hsymm : p.Symmetric)
    (hslack : 0 ≤ settings.rangeSlack) (hmemory : state.memory.FilledFrom p)
    {master : MasterProgram L K} (hsolve : g.state.master.solve = (.ok (), master)) :
    ∃ added : List (Itinerary K),
      (g.scanAfter p settings residual master).state.master.itineraries =
        g.state.master.itineraries ++ added ∧
      ∀ it ∈ added, it.tourLength = min p.range (p.optimum it.platforms.members) ∧
        (0 < settings.rangeSlack → p.optimum it.platforms.members ≤ p.range ∧
          it.tourLength = p.optimum it.platforms.members) := by
  have hsound : ({ g.state with master } : SolverState L K).memory.Sound p := h.sound hsymm hmemory
  obtain ⟨added, hadded, hlimited⟩ :=
    (g.terms p settings residual master).scan_adds (wellFormed_terms h.order master) hsymm hsound
  refine ⟨added, ?_, fun it hit => ⟨(hlimited it hit).capped hslack, fun hpos =>
    ⟨(hlimited it hit).within hpos, (hlimited it hit).tourLength_eq hpos⟩⟩⟩
  rw [show g.state.master.itineraries = master.itineraries by
    rw [show master = g.state.master.solve.2 by rw [hsolve]]
    rfl]
  exact hadded

/-! Without slack, a tour beyond the range is taken for one of just that length. -/

end ColumnGeneration

/-- Two platforms that are further from each other than from the depot. -/
def Problem.detour : Problem ℚ where
  platforms := [.depot, ⟨1, 0, 0, 1⟩, ⟨2, 0, 0, 1⟩]
  distances := ⟨3, #[0, 2, 2, 2, 0, 3, 2, 3, 0], rfl⟩
  capacity := 2
  range := 6
  sound := by decide +kernel

namespace Detour

open Problem (detour)

/-! One iteration for one itinerary, at the optimal solution over the platforms' own itineraries:
the scan looks at the first platform and then at both. -/

theorem symmetric : detour.Symmetric := by decide

theorem optimum_pair : detour.optimum {1, 2} = 7 := by
  rw [Problem.optimum, Tour.optimum_pair (by decide)]
  norm_num [Problem.distance, DistanceTable.distance, detour]

def settings (slack : ℚ) : Settings ℚ := ⟨1, 1, 0, slack, 1⟩

def answers : List (Lp.Answer ℚ) := [.solution 8 [1, 1] [4, 4]]

def opening : ColumnGeneration (Lp.Scripted ℚ) ℚ := .opening detour answers .empty

def master : MasterProgram (Lp.Scripted ℚ) ℚ := opening.state.master.solve.2

def terms (slack : ℚ) : Pricing.Terms ℚ :=
  ⟨detour, settings slack, [0, 1, 1], [0, 4, 4], [1, 2]⟩

theorem terms_eq (slack : ℚ) :
    opening.terms detour (settings slack) detour.demands master = terms slack :=
  ColumnGeneration.terms_of_pairwise (by decide)

theorem askable_single : detour.Askable [1] := ⟨by decide, by decide⟩

theorem askable_pair : detour.Askable [1, 2] := ⟨by decide, by decide⟩

theorem ask_single {slack : ℚ} (hslack : 0 ≤ slack) : ((terms slack).ask .empty [1]).1 = 4 := by
  have hways : detour.distance 0 1 = detour.distance 1 0 := by decide
  have htrip : detour.distance 0 1 + detour.distance 1 0 = 4 := by
    norm_num [Problem.distance, DistanceTable.distance, detour]
  rw [(terms slack).ask_empty_single hways]
  show min (6 + slack) (detour.distance 0 1 + detour.distance 1 0) = 4
  rw [htrip, min_eq_right (by linarith)]

theorem opens {slack : ℚ} (hslack : 0 ≤ slack) : (terms slack).Opens .empty 1 [2] := by
  have hdear : ¬(terms 0).improves ((terms 0).itinerary [1] 4) = true := by decide +kernel
  refine ⟨rfl, Nat.one_pos, ?_, ?_, by show 1 < 2; decide⟩
  · rw [ask_single hslack]
    show ¬(6 : ℚ) < 4
    decide
  · rw [ask_single hslack]
    exact hdear

theorem ask_pair (slack : ℚ) :
    ((terms slack).ask ((terms slack).ask .empty [1]).2 [1, 2]).1 = min (6 + slack) 7 := by
  have hasked : ((terms slack).ask .empty [1]).2.FilledFrom (terms slack).problem :=
    TourMemory.FilledFrom.empty.ask _ askable_single
  rw [hasked.ask_eq_min (t := terms slack) symmetric askable_pair (by decide),
    show [1, 2].toFinset = {1, 2} from rfl, show (terms slack).problem = detour from rfl,
    optimum_pair]
  rfl

def recorded : Itinerary ℚ := (terms 0).itinerary [1, 2] 6

theorem ask_pair_zero : ((terms 0).ask ((terms 0).ask .empty [1]).2 [1, 2]).1 = 6 :=
  (ask_pair 0).trans (by norm_num)

theorem pairs : (terms 0).Pairs .empty 1 2 [] recorded := by
  refine ⟨opens le_rfl, ?_, ?_, by decide +kernel⟩
  · rw [ask_pair_zero]
    rfl
  · rw [ask_pair_zero]
    decide

theorem unknown : master.contains recorded = false :=
  (MasterProgram.catalogued_reset _ _ _).contains_eq_false (m := master) (by decide)

/-- Without slack, a tour of 7 units passes for one of 6, the range. -/
theorem adds_beyond_range :
    detour.Symmetric ∧ 0 ≤ (settings 0).rangeSlack ∧
      ColumnGeneration.Due detour (settings 0) detour.demands (.scripted detour answers .empty)
        opening ∧
      opening.state.master.solve = (.ok (), master) ∧
      (opening.scanAfter detour (settings 0) detour.demands master).state.master.itineraries =
        opening.state.master.itineraries ++ [recorded] ∧
      recorded.tourLength = detour.range ∧
      detour.range < detour.optimum recorded.platforms.members := by
  have hpairs : (terms 0).Pairs (⟨master, .empty⟩ : SolverState _ ℚ).memory 1 2 [] recorded := pairs
  obtain ⟨walk, extend, hscan⟩ := hpairs.scan rfl unknown
  refine ⟨symmetric, le_refl 0, ColumnGeneration.due_opening _ _ _ _, rfl, ?_, rfl, ?_⟩
  · rw [ColumnGeneration.scanAfter, terms_eq]
    show ((terms 0).scan ⟨master, .empty⟩).state.master.itineraries = _
    rw [hscan]
    dsimp only
    rw [MasterProgram.add_of_not_contains unknown]
    rfl
  · rw [show recorded.platforms.members = {1, 2} by decide +kernel, optimum_pair]
    decide +kernel

/-- The itinerary that a scan without slack adds, and one added with slack, which takes its two
platforms in exactly the range. -/
theorem adds_limited_detour :
    (∃ added : List (Itinerary ℚ),
      (opening.scanAfter detour (settings 0) detour.demands master).state.master.itineraries =
          opening.state.master.itineraries ++ added ∧
        ∀ it ∈ added, it.tourLength = min 6 (detour.optimum it.platforms.members) ∧
          (0 < (settings 0).rangeSlack → detour.optimum it.platforms.members ≤ 6 ∧
            it.tourLength = detour.optimum it.platforms.members)) ∧
    0 < Collinear.settings.rangeSlack ∧
    ∃ added : List (Itinerary ℚ), Collinear.outerPair ∈ added ∧
      ∀ it ∈ added, Problem.collinear.optimum it.platforms.members ≤ 6 ∧
        it.tourLength = Problem.collinear.optimum it.platforms.members := by
  have hslack : 0 < Collinear.settings.rangeSlack := by decide +kernel
  refine ⟨(ColumnGeneration.due_opening detour (settings 0) answers .empty).adds_limited symmetric
    (le_refl 0) .empty rfl, hslack, ?_⟩
  have hbegins := Collinear.beginsOn_earlyTerms (.inl rfl)
  obtain ⟨added, hadded, hlimited⟩ := hbegins.due.adds_limited Collinear.symmetric hslack.le .empty
    hbegins.solved
  refine ⟨added, ?_, fun it hit => (hlimited it hit).2 hslack⟩
  obtain ⟨-, hiterated⟩ := hbegins.iterated_pair rfl (Collinear.pairs_earlyTerms (.inl rfl))
    Collinear.contains_outerPair
  have hitineraries := congrArg (fun g => g.state.master.itineraries) hiterated
  obtain rfl : [Collinear.outerPair] = added :=
    List.append_cancel_left (hitineraries.symm.trans hadded)
  exact List.mem_singleton_self _

end Detour

/-! ### Refusals -/

/-- When no detour is a short cut, a set of platforms that a scan refuses to extend has no extension
that one tour within the range can reach. -/
theorem ColumnGeneration.Due.range_lt_of_refuses {p : Problem K} {settings : Settings K}
    {residual : List ℕ} {state : SolverState L K} {g : ColumnGeneration L K}
    (h : Due p settings residual state g) (hmetric : p.Metric)
    (hmemory : state.memory.FilledFrom p) {master : MasterProgram L K} {stops : List ℕ}
    (hrefuses : (g.terms p settings residual master).Refuses { g.state with master } stops)
    {platforms : Finset ℕ} (hsubset : stops.toFinset ⊆ platforms)
    (hlocated : ∀ i ∈ platforms, i ≤ p.platformCount) : p.range < p.optimum platforms :=
  calc p.range < p.optimum stops.toFinset :=
        hrefuses.range_lt (wellFormed_terms h.order master) hmetric.symmetric
          (h.sound hmetric.symmetric hmemory)
    _ ≤ p.optimum platforms := hmetric.triangular.optimum_mono hsubset hlocated

namespace Detour

open Problem (detour)

theorem refuses : (opening.terms detour (settings 1) detour.demands master).Refuses
    { opening.state with master } [1, 2] := by
  rw [terms_eq]
  refine (opens zero_le_one).refuses_pair ?_
  show (terms 1).problem.range < ((terms 1).ask ((terms 1).ask .empty [1]).2 [1, 2]).1
  show (6 : ℚ) < _
  rw [ask_pair]
  norm_num

theorem range_lt_of_refuses_detour : detour.range < detour.optimum {1, 2} :=
  (ColumnGeneration.due_opening detour (settings 1) answers .empty).range_lt_of_refuses
    (.given symmetric (by decide +kernel)) .empty refuses (subset_refl _) (by decide +kernel)

end Detour

/-! The rules of a problem do not ask for that much. They admit detours that are short cuts, and
opposite distances that differ a little, of which a search tries one only. -/

/-- A scan of the first iteration refuses to extend a set of platforms, though one tour within the
range can reach a set that includes it. -/
def Problem.Overlooks (p : Problem ℚ) (settings : Settings ℚ) (answers : List (Lp.Answer ℚ))
    (memory : TourMemory ℚ) : Prop :=
  ∃ g master stops platforms,
    ColumnGeneration.Due p settings p.demands (.scripted p answers memory) g ∧
      g.state.master.solve = (.ok (), master) ∧
      (g.terms p settings p.demands master).Refuses { g.state with master } stops ∧
      stops.toFinset ⊆ platforms ∧ (∀ i ∈ platforms, i ≤ p.platformCount) ∧
      p.optimum platforms ≤ p.range

/-- The first platform is near by way of the second one only. -/
def Problem.shortcut : Problem ℚ where
  platforms := [.depot, ⟨1, 0, 0, 1⟩, ⟨2, 0, 0, 1⟩]
  distances := ⟨3, #[0, 10, 1, 10, 0, 1, 1, 1, 0], rfl⟩
  capacity := 2
  range := 12
  sound := by decide +kernel

/-- The way from the second platform to the first is a little shorter than the way back. -/
def Problem.tailwind : Problem ℚ where
  platforms := [.depot, ⟨1, 0, 0, 1⟩, ⟨2, 0, 0, 1⟩]
  distances := ⟨3, #[0, 1, 1, 1, 0, 1, 1, 1 - 1 / 2 ^ 30, 0], rfl⟩
  capacity := 2
  range := 3 - 1 / 2 ^ 30
  sound := by decide +kernel

namespace Shortcut

open Problem (shortcut)

def settings : Settings ℚ := ⟨1, 1, 0, 1, 1⟩

def answers : List (Lp.Answer ℚ) := [.solution 22 [1, 1] [20, 2]]

def terms : Pricing.Terms ℚ := ⟨shortcut, settings, [0, 1, 1], [0, 20, 2], [1, 2]⟩

theorem overlooks : shortcut.Overlooks settings answers .empty := by
  set g := ColumnGeneration.opening shortcut answers .empty
  have hterms : g.terms shortcut settings shortcut.demands g.state.master.solve.2 = terms :=
    ColumnGeneration.terms_of_pairwise (by decide)
  refine ⟨g, g.state.master.solve.2, [1], {1, 2}, ColumnGeneration.due_opening _ _ _ _, rfl, ?_,
    by decide, by decide, ?_⟩
  · rw [hterms]
    refine Pricing.Terms.refuses_first rfl (by decide) ?_
    show _ < (terms.ask .empty [1]).1
    rw [terms.ask_empty_single (by decide)]
    decide +kernel
  · rw [Problem.optimum, Tour.optimum_pair (by decide)]
    norm_num [Problem.distance, DistanceTable.distance, shortcut]

end Shortcut

namespace Tailwind

open Problem (tailwind)

def settings : Settings ℚ := ⟨1, 1, 0, 1, 1⟩

def answers : List (Lp.Answer ℚ) := [.solution 4 [1, 1] [2, 2]]

def terms : Pricing.Terms ℚ := ⟨tailwind, settings, [0, 1, 1], [0, 2, 2], [1, 2]⟩

theorem slowHome : tailwind.SlowHome := by
  show ∀ i ≤ tailwind.platformCount, _
  decide

/-- Of the two directions of the tour, the search tries the longer one. -/
theorem range_lt_ask {memory : TourMemory ℚ} (hmemory : memory.FilledFrom tailwind) :
    terms.problem.range < (terms.ask memory [1, 2]).1 := by
  have hstops : tailwind.Askable [1, 2] := ⟨by decide, by decide⟩
  obtain ⟨tour, htour⟩ := Tour.exists_firstShortest tailwind.zero_le_distance
    (List.cons_ne_nil 1 [2]) hstops.nodup
  obtain rfl : tour = [1, 2] := by
    rcases List.perm_pair.mp htour.perm with rfl | rfl
    · rfl
    · exact absurd htour.counted (by decide)
  rcases (hmemory.agrees slowHome).answer tailwind.zero_le_distance htour hstops.nodup
    hstops.lt_capacity (fun i hi => slowHome i (hstops.located i hi))
    (terms.problem.range + terms.settings.rangeSlack) with hanswer | hanswer
  all_goals
    refine lt_of_lt_of_eq ?_ hanswer.symm
    decide +kernel

theorem overlooks : tailwind.Overlooks settings answers .empty := by
  set g := ColumnGeneration.opening tailwind answers .empty
  have hterms : g.terms tailwind settings tailwind.demands g.state.master.solve.2 = terms :=
    ColumnGeneration.terms_of_pairwise (by decide)
  have hsingle : (terms.ask .empty [1]).1 = 2 := by
    rw [terms.ask_empty_single (by decide)]
    decide +kernel
  have hasked : (terms.ask .empty [1]).2.FilledFrom tailwind :=
    TourMemory.FilledFrom.empty.ask _ ⟨by decide, by decide⟩
  refine ⟨g, g.state.master.solve.2, [1, 2], {1, 2}, ColumnGeneration.due_opening _ _ _ _, rfl, ?_,
    by decide, by decide, ?_⟩
  · rw [hterms]
    refine Pricing.Terms.Opens.refuses_pair ⟨rfl, by decide, ?_, ?_, by decide⟩
      (range_lt_ask hasked)
    all_goals
      rw [show terms.ask g.state.memory [1] = terms.ask .empty [1] from rfl, hsingle]
      decide +kernel
  · rw [Problem.optimum, Tour.optimum_pair (by decide)]
    decide +kernel

end Tailwind

namespace Detour

open Problem (detour)

/-- The memory after a question about the first platform of a problem in which it is further. -/
def foreign : TourMemory ℚ :=
  (TourMemory.empty.tourLength Problem.shortcut.shortestTour [1] 100).run.2

theorem foreign_fact : foreign.facts[LocationSet.ofList [1]]? = some (.shortest 20) := by
  have hsearch : (Problem.shortcut.shortestTour [1] 100).run = 20 := by decide +kernel
  rw [foreign, TourMemory.fact_of_empty, hsearch]
  exact congrArg some (if_pos (by decide))

theorem overlooks : detour.Overlooks (settings 1) answers foreign := by
  set g := ColumnGeneration.opening detour answers foreign
  have hterms : g.terms detour (settings 1) detour.demands g.state.master.solve.2 = terms 1 :=
    ColumnGeneration.terms_of_pairwise (by decide)
  refine ⟨g, g.state.master.solve.2, [1], {1}, ColumnGeneration.due_opening _ _ _ _, rfl, ?_,
    by decide, by decide, ?_⟩
  · rw [hterms]
    refine Pricing.Terms.refuses_first rfl (by decide) ?_
    show _ < ((terms 1).ask foreign [1]).1
    rw [Pricing.Terms.ask, TourMemory.tourLength_run, foreign_fact]
    decide +kernel
  · rw [Problem.optimum, Tour.optimum_singleton]
    norm_num [Problem.distance, DistanceTable.distance, detour]

end Detour

/-- The refusals are right neither without the triangle inequality, nor without symmetry, nor with
the memory of another problem. -/
theorem ColumnGeneration.refusals_overlook :
    (Problem.shortcut.Symmetric ∧ ¬Problem.shortcut.Triangular ∧
      0 < Shortcut.settings.rangeSlack ∧
      Problem.shortcut.Overlooks Shortcut.settings Shortcut.answers .empty) ∧
    (¬Problem.tailwind.Symmetric ∧ Problem.tailwind.Triangular ∧
      0 < Tailwind.settings.rangeSlack ∧
      Problem.tailwind.Overlooks Tailwind.settings Tailwind.answers .empty) ∧
    (Problem.detour.Symmetric ∧ Problem.detour.Triangular ∧
      0 < (Detour.settings 1).rangeSlack ∧
      Problem.detour.Overlooks (Detour.settings 1) Detour.answers Detour.foreign) :=
  ⟨⟨by decide +kernel, by decide +kernel, by decide +kernel, Shortcut.overlooks⟩,
    ⟨by decide +kernel, by decide +kernel, by decide +kernel, Tailwind.overlooks⟩,
    by decide +kernel, by decide +kernel, by decide +kernel, Detour.overlooks⟩

end OffshoreFlights
