import OffshoreFlights.Proofs.Rounding.Carried
import OffshoreFlights.Proofs.Tour.Recall

/-! Itineraries told apart by their allocations. The master program turns down an itinerary whose
allocation it holds. All itineraries serve each of their stops, so that the allocation shows the
platforms, and with them the tour; and those found by scans have two stops at least, so that they
never meet the platforms' own itineraries, which every round makes anew. -/

namespace OffshoreFlights

variable {L S α : Type} [Scalar α] [Lp.Backend L α] {p : Problem α} {settings : Settings α}
  {residual : List ℕ}

/-! ### Itineraries that show their platforms -/

namespace Itinerary

/-- An itinerary to different platforms that serves all its stops. Its tour is the first of the
shortest ones. -/
structure Charted (p : Problem α) (settings : Settings α) (it : Itinerary α) : Prop where
  nonempty : it.stops ≠ []
  nodup : it.stops.Nodup
  located : ∀ i ∈ it.stops, 1 ≤ i ∧ i ≤ p.platformCount
  served : it.support = it.stops.toFinset
  shortest : p.SlowHome → p.range < p.range + settings.rangeSlack →
    ∃ t, Tour.FirstShortest p.distance it.stops t ∧ it.tourLength = Tour.reckoned p.distance t

namespace Charted

variable {it it' : Itinerary α} (h : it.Charted p settings)

include h

omit [Lp.Backend L α] in
theorem servedAt_pos {i : ℕ} (hi : i ∈ it.stops) : 1 ≤ it.servedAt i := by
  rw [← List.mem_toFinset, ← h.served] at hi
  exact mem_support.mp hi

variable (h' : it'.Charted p settings) (hallocation : it.allocation = it'.allocation)

include h' hallocation

theorem perm : it.stops.Perm it'.stops := by
  apply List.perm_of_nodup_nodup_toFinset_eq h.nodup h'.nodup
  rw [← h.served, ← h'.served]
  exact support_congr hallocation

theorem platforms_eq : it.platforms = it'.platforms :=
  LocationSet.ofList_congr fun _ => (h.perm h' hallocation).mem_iff

theorem tourLength_eq [Scalar.Lengths α] (hhome : p.SlowHome)
    (hslack : p.range < p.range + settings.rangeSlack) : it.tourLength = it'.tourLength := by
  obtain ⟨t, ht, hlength⟩ := h.shortest hhome hslack
  obtain ⟨t', ht', hlength'⟩ := h'.shortest hhome hslack
  have hunique := (ht.of_perm (h.perm h' hallocation)).unique ht'
  rw [hlength, hlength', hunique]

end Charted

end Itinerary

theorem MasterProgram.charted_basisItinerary [Scalar.Lengths α] (settings : Settings α)
    (residual : List ℕ) {j : ℕ} (h1 : 1 ≤ j) (hj : j ≤ p.platformCount) :
    (basisItinerary p residual j).Charted p settings where
  nonempty := List.cons_ne_nil j []
  nodup := List.nodup_singleton j
  located := by
    intro i hi
    obtain rfl := List.mem_singleton.mp hi
    exact ⟨h1, hj⟩
  served := support_basisItinerary p residual hj
  shortest := fun _ _ => ⟨[j], Tour.firstShortest_singleton p.zero_le_distance j, rfl⟩

namespace Pricing.Terms

variable {t : Terms α} {stops : List ℕ}

theorem Offers.charted [Scalar.Lengths α] (h : t.Offers stops) (ht : t.WellFormed)
    {memory : TourMemory α} (hmemory : memory.FilledFrom t.problem)
    (hrange : ¬t.problem.range < (t.ask memory stops).1) :
    (t.itinerary stops (t.ask memory stops).1).Charted t.problem t.settings where
  nonempty := h.nonempty
  nodup := h.sublist.nodup ht.nodup
  located := fun i hi => ht.located i (h.sublist.subset hi)
  served := h.support ht _
  shortest := by
    intro hhome hslack
    have haskable := h.askable ht
    obtain ⟨tour, htour⟩ :=
      Tour.exists_firstShortest t.problem.zero_le_distance h.nonempty haskable.nodup
    refine ⟨tour, htour, ?_⟩
    rcases (hmemory.agrees hhome).answer t.problem.zero_le_distance htour haskable.nodup
      haskable.lt_capacity (fun i hi => hhome i (haskable.located i hi))
      (t.problem.range + t.settings.rangeSlack) with hlength | hlength
    · exact hlength
    · -- the bound is beyond the range, so it is not the length of the tour
      exact absurd (hlength ▸ hslack) hrange

/-- A set of one platform offers the platform's own itinerary. -/
theorem allocation_itinerary_singleton (ht : t.WellFormed)
    (hlength : t.residual.length = t.problem.platformCount + 1) {j : ℕ} (hj : j ∈ t.candidates)
    (tourLength : α) :
    (t.itinerary [j] tourLength).allocation =
      (MasterProgram.basisItinerary t.problem t.residual j).allocation := by
  have hwaiting := ht.demanded j hj
  have hseats := t.problem.valid.seats
  have hserved : max (min t.problem.capacity (t.residual.getD j 0)) 1 =
      min t.problem.capacity (t.residual.getD j 0) := by omega
  unfold MasterProgram.basisItinerary
  rw [hserved, ← hlength]
  rfl

end Pricing.Terms

/-! ### Master programs whose itineraries are told apart -/

namespace MasterProgram

variable {m : MasterProgram L α}

/-- What holds of a master program in all of a run. -/
structure Spread (p : Problem α) (settings : Settings α) (m : MasterProgram L α) : Prop where
  size : m.basisSize = p.platformCount
  front : ∀ it ∈ m.itineraries.take p.platformCount,
    ∃ made j, 1 ≤ j ∧ j ≤ p.platformCount ∧ it = basisItinerary p made j
  behind : ∀ it ∈ m.itineraries.drop p.platformCount,
    it.Charted p settings ∧ 2 ≤ it.stops.toFinset.card
  distinct : (m.itineraries.map Itinerary.allocation).Nodup

/-- What holds of it besides from the reset on, as long as the residual demands are the same. -/
structure Scannable (p : Problem α) (settings : Settings α) (residual : List ℕ)
    (m : MasterProgram L α) : Prop extends Spread p settings m where
  basis : m.itineraries.take p.platformCount = basis p residual
  catalogued : m.Catalogued

theorem spread_start {lp : L} (hrows : Lp.Backend.rowCount lp = p.platformCount) :
    (start lp).Spread p settings := by
  refine ⟨hrows, ?_, ?_, List.nodup_nil⟩
  · intro it hit
    simp [start] at hit
  · intro it hit
    simp [start] at hit

omit [Lp.Backend L α] in
theorem Spread.charted [Scalar.Lengths α] (h : m.Spread p settings) {it : Itinerary α}
    (hit : it ∈ m.itineraries) : it.Charted p settings := by
  rw [← List.take_append_drop p.platformCount m.itineraries] at hit
  rcases List.mem_append.mp hit with hit | hit
  · obtain ⟨made, j, h1, hj, rfl⟩ := h.front it hit
    exact charted_basisItinerary settings made h1 hj
  · exact (h.behind it hit).1

theorem nodup_basis (p : Problem α) (residual : List ℕ) :
    ((basis p residual).map Itinerary.allocation).Nodup := by
  rw [basis, List.map_map]
  refine List.nodup_range.map_on ?_
  intro i hi j hj hallocation
  have hi := List.mem_range.mp hi
  have hj := List.mem_range.mp hj
  have hsupport := Itinerary.support_congr hallocation
  rw [support_basisItinerary p residual (by omega), support_basisItinerary p residual (by omega),
    Finset.singleton_inj] at hsupport
  omega

theorem Spread.reset (h : m.Spread p settings) (residual : List ℕ) :
    (m.reset p residual).Scannable p settings residual := by
  have hdrop : (m.reset p residual).itineraries.drop p.platformCount =
      m.itineraries.drop p.platformCount := by
    rw [itineraries_reset]
    exact List.drop_left' (length_basis p residual)
  refine ⟨⟨(basisSize_reset p residual m).trans h.size, ?_, ?_, ?_⟩, take_reset p residual m,
    catalogued_reset m p residual⟩
  · intro it hit
    rw [take_reset] at hit
    exact ⟨residual, mem_basis.mp hit⟩
  · rw [hdrop]
    exact h.behind
  · rw [itineraries_reset, List.map_append, List.nodup_append]
    refine ⟨nodup_basis p residual, ?_, ?_⟩
    · exact h.distinct.sublist ((List.drop_sublist _ _).map Itinerary.allocation)
    · -- one platform is served in front, and more than one behind
      intro a ha b hb hab
      obtain ⟨own, hown, rfl⟩ := List.mem_map.mp ha
      obtain ⟨found, hfound, rfl⟩ := List.mem_map.mp hb
      obtain ⟨j, -, hj, rfl⟩ := mem_basis.mp hown
      obtain ⟨hcharted, hcard⟩ := h.behind found hfound
      rw [← hcharted.served, ← Itinerary.support_congr hab, support_basisItinerary p residual hj,
        Finset.card_singleton] at hcard
      omega

theorem Spread.removeUnfit (h : m.Spread p settings) (left : List ℕ) :
    (m.removeUnfit left).2.Spread p settings := by
  refine ⟨(basisSize_removeUnfit m left).trans h.size, ?_, ?_, ?_⟩
  · rw [take_removeUnfit h.size]
    exact h.front
  · intro it hit
    exact h.behind it (mem_drop_removeUnfit h.size hit).1
  · exact h.distinct.sublist ((sublist_removeUnfit m left).map Itinerary.allocation)

theorem Scannable.add (h : m.Scannable p settings residual) {it : Itinerary α}
    (hit : it.Charted p settings)
    (hown : ∀ j, it.stops = [j] → it.allocation = (basisItinerary p residual j).allocation) :
    (m.add it).2.Scannable p settings residual := by
  by_cases hcontains : m.contains it = true
  · rw [add_of_contains hcontains]
    exact h
  · have hcatalogued := h.catalogued.add it
    have hunknown := Bool.eq_false_iff.mpr hcontains
    have hnew := h.catalogued.allocation_ne hunknown
    rw [add_of_not_contains hunknown] at hcatalogued ⊢
    have hlength := le_length_of_take h.basis
    have htake : (m.itineraries ++ [it]).take p.platformCount =
        m.itineraries.take p.platformCount := List.take_append_of_le_length hlength
    refine ⟨⟨h.size, ?_, ?_, ?_⟩, htake.trans h.basis, hcatalogued⟩
    · dsimp only
      rw [htake]
      exact h.front
    · dsimp only
      rw [List.drop_append_of_le_length hlength]
      intro found hfound
      rcases List.mem_append.mp hfound with hfound | hfound
      · exact h.behind found hfound
      · obtain rfl := List.mem_singleton.mp hfound
        refine ⟨hit, ?_⟩
        -- with one stop only, it would be the platform's own itinerary
        by_contra hcard
        rw [List.toFinset_card_of_nodup hit.nodup] at hcard
        have hone : found.stops.length = 1 := by
          have := List.length_pos_of_ne_nil hit.nonempty
          omega
        obtain ⟨j, hj⟩ := List.length_eq_one_iff.mp hone
        obtain ⟨h1, hle⟩ := hit.located j (by simp [hj])
        have hheld : basisItinerary p residual j ∈ m.itineraries := by
          apply List.mem_of_mem_take (i := p.platformCount)
          rw [h.basis]
          exact mem_basis.mpr ⟨j, h1, hle, rfl⟩
        exact hnew _ hheld (hown j hj).symm
    · exact nodup_allocations_concat h.distinct hnew

end MasterProgram

/-! ### Runs -/

variable [Scalar.Lengths α]

theorem ColumnGeneration.preserved_scannable (hlength : residual.length = p.platformCount + 1)
    (settings : Settings α) :
    Preserved (L := L) p settings residual fun st =>
      st.memory.FilledFrom p ∧ st.master.Scannable p settings residual := by
  refine ⟨fun st h => ⟨h.1, ⟨⟨h.2.size, h.2.front, h.2.behind, h.2.distinct⟩, h.2.basis,
    h.2.catalogued⟩⟩, fun t stops scan scan' hp hs hr ht hvisit h => ?_⟩
  refine ⟨(preserved_filledFrom p settings residual).visit t stops scan scan' hp hs hr ht hvisit
    h.1, ?_⟩
  subst hp hs hr
  have hlook := hvisit.look
  cases hlook with
  | beyondRange _ _ _ master | tooDear _ _ _ _ master | held _ _ _ _ master =>
    rw [master]
    exact h.2
  | new hrange _ _ _ _ master =>
    rw [master]
    refine h.2.add (hvisit.offered.charted ht h.1 hrange) ?_
    intro j hj
    obtain rfl : stops = [j] := hj
    exact Pricing.Terms.allocation_itinerary_singleton ht hlength
      (hvisit.offered.sublist.subset (List.mem_singleton_self j)) _

namespace Rounding

variable [FlightChooser S α] {first r : Rounding L S α}

/-- What holds between rounds. -/
structure Tidy (p : Problem α) (settings : Settings α) (r : Rounding L S α) : Prop where
  consistent : r.Consistent p
  memory : r.solver.memory.FilledFrom p
  spread : r.solver.master.Spread p settings

omit [Scalar.Lengths α] [FlightChooser S α] in
theorem tidy_start {lp : L} (hrows : Lp.Backend.rowCount lp = p.platformCount)
    {memory : TourMemory α} (hmemory : memory.FilledFrom p) (chooser : S) :
    (start p ⟨.start lp, memory⟩ chooser).Tidy p settings :=
  ⟨consistent_start p lp memory chooser, hmemory, MasterProgram.spread_start hrows⟩

omit [FlightChooser S α] in
theorem carried_scannable (p : Problem α) (settings : Settings α) :
    Carried p settings
      (fun _ (st : SolverState L α) => st.memory.FilledFrom p ∧ st.master.Spread p settings)
      fun residual st => st.memory.FilledFrom p ∧ st.master.Scannable p settings residual where
  reset residual _ h := ⟨h.1, h.2.reset residual⟩
  preserved _ hlength := ColumnGeneration.preserved_scannable hlength settings
  removeUnfit _ left _ h := ⟨h.1, h.2.toSpread.removeUnfit left⟩

omit [FlightChooser S α] in
theorem Tidy.scannable (h : r.Tidy p settings) {st : SolverState L α}
    (hst : ColumnGeneration.Passed p settings r.residual r.solver st) :
    st.memory.FilledFrom p ∧ st.master.Scannable p settings r.residual :=
  (carried_scannable p settings).passed h.consistent ⟨h.memory, h.spread⟩ hst

theorem Reached.tidy (hfirst : first.Tidy p settings) (h : Reached p settings first r) :
    r.Tidy p settings :=
  have ⟨hmemory, hspread⟩ := (carried_scannable p settings).reached hfirst.consistent
    ⟨hfirst.memory, hfirst.spread⟩ h
  ⟨h.consistent hfirst.consistent, hmemory, hspread⟩

end Rounding

/-- The itineraries of a state are told apart by their allocations, and so is the one that a scan
may build from those that are present. -/
structure SolverState.ToldApart (p : Problem α) (settings : Settings α) (st : SolverState L α) :
    Prop where
  generated : ∀ it ∈ st.master.itineraries.drop p.platformCount,
    2 ≤ it.stops.toFinset.card ∧
      ∀ i ∈ it.stops, (1 ≤ i ∧ i ≤ p.platformCount) ∧ 1 ≤ it.servedAt i
  distinct : (st.master.itineraries.map Itinerary.allocation).Nodup
  duplicate : ∀ (t : Pricing.Terms α) (stops : List ℕ), t.problem = p → t.settings = settings →
    t.WellFormed → t.Offers stops →
      let length := (t.ask st.memory stops).1
      ¬p.range < length → ∀ held ∈ st.master.itineraries,
        held.allocation = (t.itinerary stops length).allocation →
          held.platforms = (t.itinerary stops length).platforms ∧
            (p.SlowHome → p.range < p.range + settings.rangeSlack → held.tourLength = length)

omit [Lp.Backend L α] in
theorem MasterProgram.Spread.toldApart {st : SolverState L α} (h : st.master.Spread p settings)
    (hmemory : st.memory.FilledFrom p) : st.ToldApart p settings where
  generated := by
    intro it hit
    obtain ⟨hcharted, hcard⟩ := h.behind it hit
    exact ⟨hcard, fun i hi => ⟨hcharted.located i hi, hcharted.servedAt_pos hi⟩⟩
  distinct := h.distinct
  duplicate := by
    intro t stops hp hs ht hoffers length hrange held hheld hallocation
    subst hp hs
    have hbuilt := hoffers.charted ht hmemory hrange
    have hcharted := h.charted hheld
    exact ⟨hcharted.platforms_eq hbuilt hallocation, hcharted.tourLength_eq hbuilt hallocation⟩

/-- Through whatever states a run passes, rejecting an itinerary whose allocation is present loses
nothing. -/
theorem Rounding.Passed.told_apart [FlightChooser S α] {lp : L}
    (hrows : Lp.Backend.rowCount lp = p.platformCount) {memory : TourMemory α}
    (hmemory : memory.FilledFrom p) {chooser : S} {st : SolverState L α}
    (h : Passed p settings (start p ⟨.start lp, memory⟩ chooser) st) :
    st.ToldApart p settings := by
  cases h with
  | between hreached =>
    have htidy := hreached.tidy (tidy_start hrows hmemory chooser)
    exact htidy.spread.toldApart htidy.memory
  | within hreached hst =>
    obtain ⟨hfilled, hscannable⟩ :=
      (hreached.tidy (tidy_start hrows hmemory chooser)).scannable hst
    exact hscannable.toSpread.toldApart hfilled

/-- After the first column generation, the itinerary generated stands behind the platforms' own. -/
theorem Rounding.told_apart_collinear :
    Problem.collinear.SlowHome ∧
      Problem.collinear.range < Problem.collinear.range + Collinear.settings.rangeSlack ∧
      Collinear.earlyMaster.itineraries.drop 3 = [Collinear.outerPair] ∧
      SolverState.ToldApart Problem.collinear Collinear.settings
        ⟨Collinear.earlyMaster, Collinear.asked⟩ := by
  have hpassed : Passed Problem.collinear Collinear.settings Collinear.before
      (ColumnGeneration.generate Problem.collinear Collinear.settings [0, 1, 2, 1]
        Collinear.before.solver).2 := Reached.refl.passed_generate
  rw [Collinear.generate_early (.inl rfl)] at hpassed
  exact ⟨Collinear.symmetric.slowHome, by decide +kernel, rfl, hpassed.told_apart rfl .empty⟩

end OffshoreFlights
