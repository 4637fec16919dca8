import OffshoreFlights.Pricing.Scan
import OffshoreFlights.Proofs.Itinerary.Shares
import OffshoreFlights.Proofs.MasterProgram
import OffshoreFlights.Proofs.Pricing.SubsetWalk
import OffshoreFlights.Proofs.Tour.Memory

/-! What a pricing scan does. Whatever the numbers are, it asks for tours through candidates only,
and adds itineraries whose stops are all reached before the helicopter is full. In exact arithmetic,
it is told the length of the shortest tour, up to the bound that it asks for. -/

namespace OffshoreFlights.Pricing

/-- A step to the next set, on the walk that a scan is on. -/
abbrev Scan.after {L α : Type} (scan : Scan L α) (walk : SubsetWalk) : Scan L α :=
  { scan with walk }

namespace Terms

section Steps

variable {L α : Type} [Scalar α] [Lp.Backend L α] (t : Terms α)

/-- What a scan may offer: some of the candidates in their order, with a seat left before the last
of them. -/
structure Offers (stops : List ℕ) : Prop where
  nonempty : stops ≠ []
  sublist : stops.Sublist t.candidates
  room : ∀ begun rest, begun ++ rest = stops → rest ≠ [] → t.waiting begun < t.problem.capacity

/-- What the memory answers about a set, and the memory after that. -/
def ask (memory : TourMemory α) (stops : List ℕ) : α × TourMemory α :=
  (memory.tourLength t.problem.shortestTour stops
    (t.problem.range + t.settings.rangeSlack)).run

/-- What looking at a set of stops leads to, when the tour has a certain length. -/
inductive Look (stops : List ℕ) (length : α) (scan scan' : Scan L α) : Prop
  | beyondRange (h : t.problem.range < length) (extend : scan'.extend = false)
    (added : scan'.added = scan.added) (master : scan'.state.master = scan.state.master)
  | tooDear (h : ¬t.problem.range < length)
    (extend : scan'.extend = decide (t.waiting stops < t.problem.capacity))
    (dear : t.improves (t.itinerary stops length) = false)
    (added : scan'.added = scan.added) (master : scan'.state.master = scan.state.master)
  | held (h : ¬t.problem.range < length)
    (extend : scan'.extend = decide (t.waiting stops < t.problem.capacity))
    (contains : scan.state.master.contains (t.itinerary stops length) = true)
    (added : scan'.added = scan.added) (master : scan'.state.master = scan.state.master)
  | new (h : ¬t.problem.range < length)
    (extend : scan'.extend = decide (t.waiting stops < t.problem.capacity))
    (improves : t.improves (t.itinerary stops length) = true)
    (unknown : scan.state.master.contains (t.itinerary stops length) = false)
    (added : scan'.added = scan.added + 1)
    (master : scan'.state.master = (scan.state.master.add (t.itinerary stops length)).2)

variable {t} {positions : List ℕ} {scan : Scan L α}

theorem appraise_of_lt
    (h : t.problem.range < (t.ask scan.state.memory (t.stopsAt positions)).1) :
    t.appraise positions scan = ⟨scan.walk, false, scan.added,
      ⟨scan.state.master, (t.ask scan.state.memory (t.stopsAt positions)).2⟩⟩ := if_pos h

theorem appraise_of_improves
    (h : ¬t.problem.range < (t.ask scan.state.memory (t.stopsAt positions)).1) {it : Itinerary α}
    (hit : it = t.itinerary (t.stopsAt positions)
      (t.ask scan.state.memory (t.stopsAt positions)).1) (himproves : t.improves it = true) :
    t.appraise positions scan =
      ⟨scan.walk, decide (t.waiting (t.stopsAt positions) < t.problem.capacity),
        scan.added + (scan.state.master.add it).1.toNat,
        ⟨(scan.state.master.add it).2,
          (t.ask scan.state.memory (t.stopsAt positions)).2⟩⟩ := by
  subst hit
  exact (if_neg h).trans (if_pos himproves)

theorem appraise_of_dear
    (h : ¬t.problem.range < (t.ask scan.state.memory (t.stopsAt positions)).1)
    (hdear : ¬t.improves (t.itinerary (t.stopsAt positions)
      (t.ask scan.state.memory (t.stopsAt positions)).1) = true) :
    t.appraise positions scan =
      ⟨scan.walk, decide (t.waiting (t.stopsAt positions) < t.problem.capacity), scan.added,
        ⟨scan.state.master, (t.ask scan.state.memory (t.stopsAt positions)).2⟩⟩ :=
  (if_neg h).trans (if_neg hdear)

variable (positions scan)

theorem appraise_walk : (t.appraise positions scan).walk = scan.walk := by
  unfold appraise
  dsimp only
  split
  · rfl
  · split <;> rfl

theorem appraise_memory :
    (t.appraise positions scan).state.memory =
      (t.ask scan.state.memory (t.stopsAt positions)).2 := by
  unfold appraise
  dsimp only
  split
  · rfl
  · split <;> rfl

theorem appraise_look :
    t.Look (t.stopsAt positions) (t.ask scan.state.memory (t.stopsAt positions)).1 scan
      (t.appraise positions scan) := by
  by_cases hrange : t.problem.range < (t.ask scan.state.memory (t.stopsAt positions)).1
  · rw [appraise_of_lt hrange]
    exact .beyondRange hrange rfl rfl rfl
  · by_cases himproves : t.improves (t.itinerary (t.stopsAt positions)
        (t.ask scan.state.memory (t.stopsAt positions)).1) = true
    · rw [appraise_of_improves hrange rfl himproves]
      by_cases hcontains : scan.state.master.contains (t.itinerary (t.stopsAt positions)
          (t.ask scan.state.memory (t.stopsAt positions)).1) = true
      · rw [MasterProgram.add_of_contains hcontains]
        exact .held hrange rfl hcontains rfl rfl
      · have hunknown := Bool.not_eq_true _ ▸ hcontains
        refine .new hrange rfl himproves hunknown ?_ rfl
        rw [MasterProgram.add_of_not_contains hunknown]
        rfl
    · rw [appraise_of_dear hrange himproves]
      exact .tooDear hrange rfl (by simpa using himproves) rfl rfl

/-- A scan looks at a set of stops that it may offer. -/
structure Visit (t : Terms α) (stops : List ℕ) (scan scan' : Scan L α) : Prop where
  offered : t.Offers stops
  look : t.Look stops (t.ask scan.state.memory stops).1 scan scan'
  memory : scan'.state.memory = (t.ask scan.state.memory stops).2

theorem Look.waiting_lt {stops : List ℕ} {length : α} {scan scan' : Scan L α}
    (h : t.Look stops length scan scan') (hextend : scan'.extend = true) :
    t.waiting stops < t.problem.capacity := by
  cases h with
  | beyondRange _ extend => exact absurd (extend.symm.trans hextend) (by simp)
  | tooDear _ extend | held _ extend | new _ extend =>
    exact of_decide_eq_true (extend.symm.trans hextend)

/-! ### Positions and stops -/

theorem stopsAt_sublist {s : List ℕ} (hs : SubsetWalk.Ascending t.candidates.length s) :
    (t.stopsAt s).Sublist t.candidates := by
  have hmap : t.stopsAt s =
      (s.pmap Fin.mk hs.below).map fun i => t.candidates[i] := by
    rw [List.map_pmap, stopsAt, ← List.pmap_eq_map (p := fun i => i < t.candidates.length)
      (H := hs.below)]
    exact List.pmap_congr_left s fun i _ hi _ => List.getD_eq_getElem _ _ hi
  rw [hmap]
  refine List.map_getElem_sublist ?_
  rw [List.pairwise_pmap]
  exact hs.increasing.imp fun h _ _ => h

theorem exists_stopsAt {stops : List ℕ} (h : stops.Sublist t.candidates) :
    ∃ s, SubsetWalk.Ascending t.candidates.length s ∧ t.stopsAt s = stops := by
  obtain ⟨places, rfl, hplaces⟩ := List.sublist_eq_map_getElem h
  refine ⟨places.map Fin.val, ⟨?_, ?_⟩, ?_⟩
  · exact List.pairwise_map.mpr hplaces
  · intro i hi
    obtain ⟨place, -, rfl⟩ := List.mem_map.mp hi
    exact place.isLt
  · rw [stopsAt, List.map_map]
    exact List.map_congr_left fun i _ => List.getD_eq_getElem _ _ i.isLt

/-! ### The scan -/

variable (t) in
/-- What holds of a scan before each step: larger sets are looked at only while a seat is left. -/
structure Underway (scan : Scan L α) : Prop where
  walk : scan.walk.Underway scan.extend
  size : scan.walk.k = t.candidates.length
  room : ∀ u, SubsetWalk.ProperPrefix u scan.walk.current ∨
    u = scan.walk.current ∧ scan.extend = true → t.waiting (t.stopsAt u) < t.problem.capacity

omit [Lp.Backend L α] in
theorem underway_start (state : SolverState L α) :
    t.Underway ⟨.start t.candidates.length, true, 0, state⟩ := by
  refine ⟨SubsetWalk.underway_start _, rfl, fun u hu => ?_⟩
  obtain rfl : u = [] := by
    rcases hu with hu | hu
    · exact List.prefix_nil.mp hu.1
    · exact hu.1
  exact t.problem.valid.seats

/-- One step of a scan under way visits the stops at the positions to which the walk goes. -/
theorem Underway.visit {scan : Scan L α} (hscan : t.Underway scan) {s : List ℕ} {walk : SubsetWalk}
    (h : scan.walk.next scan.extend = (some s, walk)) :
    t.Visit (t.stopsAt s) scan (t.appraise s (scan.after walk)) ∧
      t.Underway (t.appraise s (scan.after walk)) := by
  obtain ⟨hfollows, hk, hcurrent, hwalk⟩ := hscan.walk.follows h
  have hascending := hfollows.ascending
  rw [hscan.size] at hascending
  have hroom : ∀ u, SubsetWalk.ProperPrefix u s →
      t.waiting (t.stopsAt u) < t.problem.capacity := fun u hu =>
    hscan.room u (hfollows.beginnings u hu)
  have hlook := appraise_look (t := t) s (scan.after walk)
  refine ⟨⟨⟨?_, stopsAt_sublist hascending, fun begun rest happend hrest => ?_⟩, ?_, ?_⟩,
    ⟨?_, ?_, ?_⟩⟩
  · simpa [stopsAt] using hfollows.nonempty
  · obtain ⟨u, v, rfl, rfl, rfl⟩ := List.map_eq_append_iff.mp happend.symm
    refine hroom u ⟨List.prefix_append u v, fun huv => hrest ?_⟩
    rw [List.self_eq_append_right.mp huv, List.map_nil]
  · cases hlook with
    | beyondRange h extend added master => exact .beyondRange h extend added master
    | tooDear h extend dear added master => exact .tooDear h extend dear added master
    | held h extend contains added master => exact .held h extend contains added master
    | new h extend improves unknown added master =>
      exact .new h extend improves unknown added master
  · exact appraise_memory s (scan.after walk)
  · rw [appraise_walk]
    exact hwalk _
  · rw [appraise_walk]
    exact hk.trans hscan.size
  · rw [appraise_walk]
    show ∀ u, SubsetWalk.ProperPrefix u walk.current ∨ u = walk.current ∧ _ → _
    rw [hcurrent]
    rintro u (hu | ⟨rfl, hextend⟩)
    · exact hroom u hu
    · exact hlook.waiting_lt hextend

theorem scanFrom_succ (steps : ℕ) (scan : Scan L α) :
    t.scanFrom (steps + 1) scan =
      if scan.added < t.settings.columnsPerIteration then
        match scan.walk.next scan.extend with
        | (none, walk) => scan.after walk
        | (some positions, walk) => t.scanFrom steps (t.appraise positions (scan.after walk))
      else scan := rfl

/-- What every visit preserves, a scan preserves. -/
theorem scanFrom_preserves {P : ℕ → SolverState L α → Prop}
    (hvisit : ∀ stops scan scan', t.Visit stops scan scan' → P scan.added scan.state →
      P scan'.added scan'.state)
    (steps : ℕ) {scan : Scan L α} (hscan : t.Underway scan) (h : P scan.added scan.state) :
    P (t.scanFrom steps scan).added (t.scanFrom steps scan).state := by
  induction steps generalizing scan with
  | zero => exact h
  | succ steps ih =>
    rw [scanFrom_succ]
    split
    · split
      next => exact h
      next hnext =>
        obtain ⟨hv, hscan⟩ := hscan.visit hnext
        exact ih hscan (hvisit _ _ _ hv h)
    · exact h

theorem scan_preserves {P : ℕ → SolverState L α → Prop}
    (hvisit : ∀ stops scan scan', t.Visit stops scan scan' → P scan.added scan.state →
      P scan'.added scan'.state) {state : SolverState L α} (h : P 0 state) :
    P (t.scan state).added (t.scan state).state :=
  scanFrom_preserves hvisit _ (underway_start state) h

theorem Look.added_le {stops : List ℕ} {length : α} {scan scan' : Scan L α}
    (h : t.Look stops length scan scan') : scan.added ≤ scan'.added := by
  cases h with
  | beyondRange _ _ added | tooDear _ _ _ added | held _ _ _ added => exact added.ge
  | new _ _ _ _ added => omega

theorem Look.master_eq {stops : List ℕ} {length : α} {scan scan' : Scan L α}
    (h : t.Look stops length scan scan') (hadded : scan'.added = scan.added) :
    scan'.state.master = scan.state.master := by
  cases h with
  | beyondRange _ _ _ master | tooDear _ _ _ _ master | held _ _ _ _ master => exact master
  | new _ _ _ _ added => omega

theorem Look.master_eq_or_add {stops : List ℕ} {length : α} {scan scan' : Scan L α}
    (h : t.Look stops length scan scan') :
    scan'.state.master = scan.state.master ∨
      scan'.state.master = (scan.state.master.add (t.itinerary stops length)).2 := by
  cases h with
  | beyondRange _ _ _ master | tooDear _ _ _ _ master | held _ _ _ _ master => exact .inl master
  | new _ _ _ _ _ master => exact .inr master

theorem added_le_scanFrom (steps : ℕ) {scan : Scan L α} (hscan : t.Underway scan) :
    scan.added ≤ (t.scanFrom steps scan).added :=
  scanFrom_preserves (P := fun n _ => scan.added ≤ n)
    (fun _ _ _ hvisit h => h.trans hvisit.look.added_le) steps hscan (le_refl _)

theorem master_of_idle_scan {state : SolverState L α} (hidle : (t.scan state).added = 0) :
    (t.scan state).state.master = state.master := by
  refine scan_preserves (P := fun n st => n = 0 → st.master = state.master) ?_ (fun _ => rfl) hidle
  intro stops scan scan' hvisit h hidle
  have hadded := hvisit.look.added_le
  rw [hvisit.look.master_eq (by omega)]
  exact h (by omega)

variable (t) in
/-- The candidates are different platforms of the problem where somebody waits. -/
structure WellFormed : Prop where
  nodup : t.candidates.Nodup
  located : ∀ i ∈ t.candidates, 1 ≤ i ∧ i ≤ t.problem.platformCount
  demanded : ∀ i ∈ t.candidates, 0 < t.residual.getD i 0

theorem WellFormed.lt_length (ht : t.WellFormed) {i : ℕ} (hi : i ∈ t.candidates) :
    i < t.residual.length := by
  by_contra hlong
  have := ht.demanded i hi
  rw [List.getD_eq_default _ _ (by omega)] at this
  omega

theorem Offers.askable {stops : List ℕ} (h : t.Offers stops) (ht : t.WellFormed) :
    t.problem.Askable stops :=
  ⟨h.sublist.nodup ht.nodup, fun i hi => (ht.located i (h.sublist.subset hi)).2⟩

end Steps

section Exact

variable {K L : Type} [Field K] [LinearOrder K] [FloorRing K] [IsStrictOrderedRing K]
  [Lp.Backend L K] {t : Terms K}

theorem ask_eq_min (ht : t.WellFormed) (hsymm : t.problem.Symmetric) {memory : TourMemory K}
    (hmemory : memory.Sound t.problem) {stops : List ℕ} (h : t.Offers stops) :
    (t.ask memory stops).1 =
      min (t.problem.range + t.settings.rangeSlack) (t.problem.optimum stops.toFinset) :=
  hmemory.tourLength hsymm (h.askable ht) h.nonempty _

theorem ask_sound (ht : t.WellFormed) (hsymm : t.problem.Symmetric) {memory : TourMemory K}
    (hmemory : memory.Sound t.problem) {stops : List ℕ} (h : t.Offers stops) :
    (t.ask memory stops).2.Sound t.problem :=
  hmemory.learns hsymm (h.askable ht) _

/-- Tours within the range are found, and the others are known to be beyond it. -/
theorem ask_of_le_range (ht : t.WellFormed) (hsymm : t.problem.Symmetric)
    (hslack : 0 < t.settings.rangeSlack) {memory : TourMemory K}
    (hmemory : memory.Sound t.problem) {stops : List ℕ} (h : t.Offers stops)
    (hrange : t.problem.optimum stops.toFinset ≤ t.problem.range) :
    (t.ask memory stops).1 = t.problem.optimum stops.toFinset := by
  rw [ask_eq_min ht hsymm hmemory h]
  exact min_eq_right (by linarith)

/-- A visit leaves the memory sound. -/
theorem Visit.sound (ht : t.WellFormed) (hsymm : t.problem.Symmetric) {stops : List ℕ}
    {scan scan' : Scan L K} (h : t.Visit stops scan scan')
    (hmemory : scan.state.memory.Sound t.problem) : scan'.state.memory.Sound t.problem := by
  rw [h.memory]
  exact ask_sound ht hsymm hmemory h.offered

end Exact

end Terms

end OffshoreFlights.Pricing
