import OffshoreFlights.Proofs.ColumnGeneration.Convergence
import OffshoreFlights.Proofs.Pricing.SubsetWalk.Enumeration
import OffshoreFlights.Proofs.RangeLimit.Scans

/-! What a pricing scan adds, without its state. The sets that it comes to, their tours and what the
master program holds can all be read off where the scan begins: no answer of the memory is about a
set that comes later, and no itinerary that is added serves the platforms of a later one. -/

namespace OffshoreFlights.Pricing.Terms

variable {L α : Type} [Scalar α] (t : Terms α) (memory : TourMemory α) (master : MasterProgram L α)

/-- The length that a memory gives for the tour through the set at some positions. -/
def lengthAt (s : List ℕ) : α := (t.ask memory (t.stopsAt s)).1

/-- Whether the set at some positions is extended. -/
def goesOn (s : List ℕ) : Bool :=
  !decide (t.problem.range < t.lengthAt memory s) &&
    decide (t.waiting (t.stopsAt s) < t.problem.capacity)

/-- The sets after the one at `s` that can be flown and extend none that is not extended, in
lexicographic order. -/
def flyable (s : List ℕ) : List (List ℕ) :=
  (SubsetWalk.ahead t.candidates.length (t.goesOn memory) s).filter fun u =>
    !decide (t.problem.range < t.lengthAt memory u)

def itineraryAt (s : List ℕ) : Itinerary α := t.itinerary (t.stopsAt s) (t.lengthAt memory s)

/-- The itineraries for the sets after the one at `s` that improve the master program and that it
does not hold. -/
def improvements (s : List ℕ) : List (Itinerary α) :=
  ((t.flyable memory s).map (t.itineraryAt memory)).filter fun it =>
    t.improves it && !master.contains it

/-- What a scan adds: the first improvements, as many as it may. -/
def yield (state : SolverState L α) : List (Itinerary α) :=
  (t.improvements state.memory state.master []).take t.settings.columnsPerIteration

variable {t memory master} {s u : List ℕ}

theorem goesOn_iff :
    t.goesOn memory s = true ↔ ¬t.TurnsBack (t.stopsAt s) (t.lengthAt memory s) := by
  simp [goesOn, TurnsBack]

/-! ### Sets ahead -/

/-- All sets that a scan comes to have a seat left before their last stop. -/
theorem offers_of_mem_ahead
    (h : u ∈ SubsetWalk.ahead t.candidates.length (t.goesOn memory) s) :
    t.Offers (t.stopsAt u) := by
  obtain ⟨hascending, hlt, hadmitted⟩ := SubsetWalk.mem_ahead.mp h
  refine ⟨?_, stopsAt_sublist hascending, fun begun rest happend hrest => ?_⟩
  · rintro hnil
    rw [List.map_eq_nil_iff.mp hnil] at hlt
    exact List.not_lt_nil s hlt
  · obtain ⟨v, w, rfl, rfl, rfl⟩ := List.map_eq_append_iff.mp happend.symm
    by_cases hv : v = []
    · subst hv
      exact t.problem.valid.seats
    · have hgoesOn := SubsetWalk.admitted_iff.mp hadmitted v hv
        ⟨List.prefix_append v w, fun heq => hrest ?_⟩
      · exact not_le.mp (not_or.mp (goesOn_iff.mp hgoesOn)).2
      · rw [List.self_eq_append_right.mp heq, List.map_nil]

/-- Different positions are those of different sets of platforms. -/
theorem eq_of_toFinset_stopsAt_eq (ht : t.WellFormed)
    (hs : SubsetWalk.Ascending t.candidates.length s)
    (hu : SubsetWalk.Ascending t.candidates.length u)
    (h : (t.stopsAt s).toFinset = (t.stopsAt u).toFinset) : s = u := by
  have hposition : ∀ {v : List ℕ}, SubsetWalk.Ascending t.candidates.length v →
      ∀ i, i < t.candidates.length → (t.candidates.getD i 0 ∈ (t.stopsAt v).toFinset ↔ i ∈ v) := by
    intro v hv i hi
    rw [List.mem_toFinset, stopsAt, List.mem_map]
    constructor
    · rintro ⟨j, hj, heq⟩
      rw [List.getD_eq_getElem _ _ (hv.below j hj), List.getD_eq_getElem _ _ hi] at heq
      rwa [← (ht.nodup.getElem_inj_iff).mp heq]
    · exact fun hi => ⟨i, hi, rfl⟩
  have hmem : ∀ i, i ∈ s ↔ i ∈ u := by
    intro i
    constructor
    · intro hi
      rw [← hposition hu i (hs.below i hi), ← h, hposition hs i (hs.below i hi)]
      exact hi
    · intro hi
      rw [← hposition hs i (hu.below i hi), h, hposition hu i (hu.below i hi)]
      exact hi
  have hperm : s.Perm u := (List.perm_ext_iff_of_nodup (hs.increasing.imp fun hlt => hlt.ne)
    (hu.increasing.imp fun hlt => hlt.ne)).mpr hmem
  exact hperm.eq_of_pairwise (fun _ _ _ _ hab hba => absurd hba (asymm hab)) hs.increasing
    hu.increasing

theorem ofList_stopsAt_ne (ht : t.WellFormed)
    (hs : SubsetWalk.Ascending t.candidates.length s)
    (hu : SubsetWalk.Ascending t.candidates.length u) (hne : s ≠ u) :
    LocationSet.ofList (t.stopsAt s) ≠ LocationSet.ofList (t.stopsAt u) := by
  have hbelow : ∀ {v : List ℕ}, SubsetWalk.Ascending t.candidates.length v →
      ∀ i ∈ t.stopsAt v, i < LocationSet.capacity := fun hv i hi =>
    (ht.located i ((stopsAt_sublist hv).subset hi)).2.trans_lt t.problem.platformCount_lt_capacity
  intro h
  apply hne
  apply eq_of_toFinset_stopsAt_eq ht hs hu
  rw [← LocationSet.members_ofList (hbelow hs), h, LocationSet.members_ofList (hbelow hu)]

/-- To ask about one set changes no answer about another. -/
theorem lengthAt_ask_of_ne (ht : t.WellFormed)
    (hs : SubsetWalk.Ascending t.candidates.length s)
    (hu : SubsetWalk.Ascending t.candidates.length u) (hne : s ≠ u) :
    t.lengthAt (t.ask memory (t.stopsAt s)).2 u = t.lengthAt memory u :=
  TourMemory.answer_congr (TourMemory.fact_of_ne (ofList_stopsAt_ne ht hs hu hne))

/-- Itineraries for different sets serve different platforms. -/
theorem allocation_ne (ht : t.WellFormed) {s₀ : List ℕ}
    (hs : s ∈ SubsetWalk.ahead t.candidates.length (t.goesOn memory) s₀)
    (hu : u ∈ SubsetWalk.ahead t.candidates.length (t.goesOn memory) s₀) (hne : s ≠ u) :
    (t.itineraryAt memory s).allocation ≠ (t.itineraryAt memory u).allocation := by
  intro h
  apply hne
  apply eq_of_toFinset_stopsAt_eq ht (SubsetWalk.mem_ahead.mp hs).1 (SubsetWalk.mem_ahead.mp hu).1
  rw [← (offers_of_mem_ahead hs).support ht (t.lengthAt memory s),
    ← (offers_of_mem_ahead hu).support ht (t.lengthAt memory u)]
  exact Itinerary.support_congr h

variable (t memory master) in
/-- The improvement for a set alone, if there is one. -/
def improvementAt (s : List ℕ) : List (Itinerary α) :=
  if ¬t.problem.range < t.lengthAt memory s ∧ t.improves (t.itineraryAt memory s) = true ∧
      master.contains (t.itineraryAt memory s) = false then [t.itineraryAt memory s] else []

theorem improvements_of_ahead
    (h : SubsetWalk.ahead t.candidates.length (t.goesOn memory) s =
      u :: SubsetWalk.ahead t.candidates.length (t.goesOn memory) u) :
    t.improvements memory master s =
      t.improvementAt memory master u ++ t.improvements memory master u := by
  unfold improvements flyable improvementAt
  rw [h, List.filter_cons]
  by_cases hrange : t.problem.range < t.lengthAt memory u
  · simp [hrange]
  · simp only [hrange, decide_false, Bool.not_false, if_true, List.map_cons, List.filter_cons,
      Bool.and_eq_true, Bool.not_eq_true', not_false_eq_true, true_and]
    split <;> rfl

theorem length_improvementAt_le : (t.improvementAt memory master s).length ≤ 1 := by
  unfold improvementAt
  split
  · exact le_refl 1
  · exact Nat.zero_le 1

theorem improvements_of_ahead_eq_nil
    (h : SubsetWalk.ahead t.candidates.length (t.goesOn memory) s = []) :
    t.improvements memory master s = [] := by
  simp [improvements, flyable, h]

theorem mem_yield {state : SolverState L α} {it : Itinerary α} (h : it ∈ t.yield state) :
    ∃ s ∈ t.flyable state.memory [], it = t.itineraryAt state.memory s := by
  obtain ⟨s, hs, rfl⟩ := List.mem_map.mp (List.mem_of_mem_filter (List.mem_of_mem_take h))
  exact ⟨s, hs, rfl⟩

/-- Where a memory gives the same answers and a master program holds the same allocations, there is
the same to add. -/
theorem yield_congr {M : Type} {state : SolverState L α} {state' : SolverState M α}
    (hmemory : ∀ key, state.memory.get? key = state'.memory.get? key)
    (hcontains : ∀ it, state.master.contains it = state'.master.contains it) :
    t.yield state = t.yield state' := by
  have hlength : t.lengthAt state.memory = t.lengthAt state'.memory :=
    funext fun s => TourMemory.answer_congr (hmemory (LocationSet.ofList (t.stopsAt s)))
  have hgoesOn : t.goesOn state.memory = t.goesOn state'.memory := by
    funext s
    rw [goesOn, goesOn, hlength]
  have hitinerary : t.itineraryAt state.memory = t.itineraryAt state'.memory := by
    funext s
    rw [itineraryAt, itineraryAt, hlength]
  unfold yield improvements flyable
  rw [hlength, hgoesOn, hitinerary]
  simp only [hcontains]

/-! ### Steps -/

variable {scan scan' : Scan L α} {walk : SubsetWalk} {state : SolverState L α}

/-- A scan which finds of all sets that are ahead what it would have found where it began. -/
structure Unswayed (t : Terms α) (memory : TourMemory α) (master : MasterProgram L α)
    (scan : Scan L α) : Prop where
  steered : scan.walk.Steered (t.goesOn memory) scan.extend
  size : scan.walk.k = t.candidates.length
  length : ∀ u ∈ SubsetWalk.ahead t.candidates.length (t.goesOn memory) scan.walk.current,
    t.lengthAt scan.state.memory u = t.lengthAt memory u
  contains : ∀ u ∈ SubsetWalk.ahead t.candidates.length (t.goesOn memory) scan.walk.current,
    scan.state.master.contains (t.itineraryAt memory u) =
      master.contains (t.itineraryAt memory u)

theorem unswayed_start (state : SolverState L α) : t.Unswayed state.memory state.master
    ⟨.start t.candidates.length, true, 0, state⟩ :=
  ⟨SubsetWalk.steered_start _ _, rfl, fun _ _ => rfl, fun _ _ => rfl⟩

variable [Lp.Backend L α]

theorem Look.extend_eq_goesOn (h : t.Look (t.stopsAt s) (t.lengthAt memory s) scan scan') :
    scan'.extend = t.goesOn memory s := by
  cases h with
  | beyondRange hrange extend => simp [goesOn, extend, hrange]
  | tooDear hrange extend | held hrange extend | new hrange extend =>
    simp [goesOn, extend, hrange]

/-- One step takes the first of the sets ahead, and leaves the others as they were. -/
theorem Unswayed.step (ht : t.WellFormed) (hscan : t.Unswayed memory master scan)
    (hnext : scan.walk.next scan.extend = (some s, walk)) :
    SubsetWalk.ahead t.candidates.length (t.goesOn memory) scan.walk.current =
        s :: SubsetWalk.ahead t.candidates.length (t.goesOn memory) s ∧
      (t.appraise s (scan.after walk)).walk.current = s ∧
      t.Look (t.stopsAt s) (t.lengthAt memory s) (scan.after walk)
        (t.appraise s (scan.after walk)) ∧
      t.Unswayed memory master (t.appraise s (scan.after walk)) := by
  obtain ⟨hahead, hk, hcurrent, hwalk⟩ := hscan.steered.next_some hnext
  rw [hk, hscan.size, hcurrent] at hahead
  have hlength := hscan.length
  have hcontains := hscan.contains
  rw [hahead] at hlength hcontains
  have hlook := appraise_look (t := t) s (scan.after walk)
  rw [show (t.ask (scan.after walk).state.memory (t.stopsAt s)).1 = t.lengthAt memory s from
    hlength s List.mem_cons_self] at hlook
  have hs : s ∈ SubsetWalk.ahead t.candidates.length (t.goesOn memory) scan.walk.current :=
    hahead ▸ List.mem_cons_self
  have hascending := (SubsetWalk.mem_ahead.mp hs).1
  have hafter : (t.appraise s (scan.after walk)).walk = walk := appraise_walk s _
  rw [← hafter] at hk hcurrent hwalk
  refine ⟨hahead, hcurrent, hlook, ⟨?_, hk.trans hscan.size, fun u hu => ?_, fun u hu => ?_⟩⟩
  · rw [hlook.extend_eq_goesOn]
    exact hwalk
  · rw [hcurrent] at hu
    obtain ⟨hascending', hlt, -⟩ := SubsetWalk.mem_ahead.mp hu
    rw [appraise_memory, ← hlength u (List.mem_cons_of_mem s hu)]
    exact lengthAt_ask_of_ne ht hascending hascending' hlt.ne
  · rw [hcurrent] at hu
    have hlt := (SubsetWalk.mem_ahead.mp hu).2.1
    rw [← hcontains u (List.mem_cons_of_mem s hu)]
    rcases hlook.master_eq_or_add with hmaster | hmaster
    · rw [hmaster]
    · rw [hmaster]
      apply MasterProgram.contains_add_of_ne
      exact allocation_ne ht hs (hahead ▸ List.mem_cons_of_mem s hu) hlt.ne

/-! ### Runs -/

/-- A scan adds some itineraries, one after another. -/
structure Adds (scan : Scan L α) (its : List (Itinerary α)) (scan' : Scan L α) : Prop where
  added : scan'.added = scan.added + its.length
  master : scan'.state.master = its.foldl (fun m it => (m.add it).2) scan.state.master
  itineraries : scan'.state.master.itineraries = scan.state.master.itineraries ++ its

theorem Adds.nil (hadded : scan'.added = scan.added)
    (hmaster : scan'.state.master = scan.state.master) : Adds scan [] scan' :=
  ⟨hadded, hmaster, by rw [hmaster, List.append_nil]⟩

theorem Adds.trans {scan'' : Scan L α} {its its' : List (Itinerary α)} (h : Adds scan its scan')
    (h' : Adds scan' its' scan'') : Adds scan (its ++ its') scan'' where
  added := by rw [h'.added, h.added, List.length_append, Nat.add_assoc]
  master := by rw [h'.master, h.master, List.foldl_append]
  itineraries := by rw [h'.itineraries, h.itineraries, List.append_assoc]

/-- A look adds the improvement for its set. -/
theorem Look.adds (h : t.Look (t.stopsAt s) (t.lengthAt memory s) scan scan')
    (hcontains : scan.state.master.contains (t.itineraryAt memory s) =
      master.contains (t.itineraryAt memory s)) :
    Adds scan (t.improvementAt memory master s) scan' := by
  unfold improvementAt
  rw [← hcontains]
  cases h with
  | beyondRange hrange _ added master =>
    rw [if_neg fun h => h.1 hrange]
    exact .nil added master
  | tooDear _ _ dear added master =>
    rw [if_neg fun h => by rw [itineraryAt, dear] at h; cases h.2.1]
    exact .nil added master
  | held _ _ contains added master =>
    rw [if_neg fun h => by rw [itineraryAt, contains] at h; cases h.2.2]
    exact .nil added master
  | new hrange _ improves unknown added master =>
    rw [if_pos ⟨hrange, improves, unknown⟩]
    refine ⟨added, master, ?_⟩
    rw [master, MasterProgram.add_of_not_contains unknown]
    rfl

/-- A scan adds, one after another, what there is to add for the sets ahead, until it may not. -/
theorem Unswayed.adds (ht : t.WellFormed) {steps : ℕ} (hscan : t.Unswayed memory master scan)
    (hsteps : (SubsetWalk.ahead t.candidates.length (t.goesOn memory)
      scan.walk.current).length ≤ steps) :
    Adds scan ((t.improvements memory master scan.walk.current).take
      (t.settings.columnsPerIteration - scan.added)) (t.scanFrom steps scan) := by
  induction steps generalizing scan with
  | zero =>
    rw [improvements_of_ahead_eq_nil (List.length_eq_zero_iff.mp (Nat.le_zero.mp hsteps)),
      List.take_nil]
    exact .nil rfl rfl
  | succ steps ih =>
    by_cases hmore : scan.added < t.settings.columnsPerIteration
    · match hnext : scan.walk.next scan.extend with
      | (none, walk) =>
        have hahead := hscan.steered.next_none hnext
        rw [hscan.size] at hahead
        rw [improvements_of_ahead_eq_nil hahead, List.take_nil, scanFrom_succ, if_pos hmore, hnext]
        exact .nil rfl rfl
      | (some s, walk) =>
        obtain ⟨hahead, hcurrent, hlook, hscan'⟩ := hscan.step ht hnext
        have hadds : Adds scan (t.improvementAt memory master s)
            (t.appraise s (scan.after walk)) := by
          have h := hlook.adds (hscan.contains s (hahead ▸ List.mem_cons_self))
          exact ⟨h.added, h.master, h.itineraries⟩
        rw [hahead, List.length_cons] at hsteps
        have hlater := ih hscan' (by rw [hcurrent]; omega)
        have hle : (t.improvementAt memory master s).length ≤ 1 := length_improvementAt_le
        rw [scanFrom_of_next hmore hnext, improvements_of_ahead hahead, List.take_append,
          List.take_of_length_le (by omega)]
        rw [hcurrent, hadds.added, ← Nat.sub_sub] at hlater
        exact hadds.trans hlater
    · rw [Nat.sub_eq_zero_of_le (not_lt.mp hmore), List.take_zero, scanFrom_succ, if_neg hmore]
      exact .nil rfl rfl

theorem scan_adds_yield (ht : t.WellFormed) (state : SolverState L α) :
    Adds ⟨.start t.candidates.length, true, 0, state⟩ (t.yield state) (t.scan state) := by
  refine (unswayed_start state).adds ht ?_
  exact (SubsetWalk.length_ahead_le _ _ _).trans (SubsetWalk.card_remaining_lt_stepBound _ _).le

/-! ### Allocations -/

variable (t) in
/-- An itinerary that serves everybody at its stops until the seats run out at the last. -/
structure FillsInTurn (it : Itinerary α) : Prop where
  nonempty : it.stops ≠ []
  before : ∀ i ∈ it.stops.dropLast, it.servedAt i = t.residual.getD i 0
  last : ∀ i ∈ it.stops.getLast?, 1 ≤ it.servedAt i
  total : it.passengerCount = min t.problem.capacity (t.waiting it.stops)

theorem Offers.fillsInTurn {stops : List ℕ} (h : t.Offers stops) (ht : t.WellFormed)
    (tourLength : α) : t.FillsInTurn (t.itinerary stops tourLength) where
  nonempty := h.nonempty
  before i hi := by
    have hsplit := List.dropLast_append_getLast h.nonempty
    rw [h.servedAt ht, ← hsplit]
    exact Itinerary.share_append_of_room (h.room _ _ hsplit (List.cons_ne_nil _ _)).le hi
  last i hi := by
    rw [h.servedAt ht]
    refine Itinerary.share_pos (fun j hj => ht.demanded j (h.sublist.subset hj)) h.room ?_
    exact List.mem_of_getLast? hi
  total := Itinerary.passengerCount_firstServed (h.sublist.nodup ht.nodup)
    fun i hi => ht.lt_length (h.sublist.subset hi)

/-- A scan is the plain filter that `yield` is: it adds the first itineraries in lexicographic order
that improve the master program and are not in it where the scan begins, as many as it may. Each
serves everybody at all stops but the last, somebody there, and as many in all as seats allow. -/
theorem scan_eq_yield (ht : t.WellFormed) (state : SolverState L α) :
    (t.scan state).state.master.itineraries = state.master.itineraries ++ t.yield state ∧
      (t.scan state).state.master = (t.yield state).foldl (fun m it => (m.add it).2) state.master ∧
      (t.scan state).added = (t.yield state).length ∧
      ∀ it ∈ t.yield state, t.FillsInTurn it := by
  obtain ⟨hadded, hmaster, hitineraries⟩ := scan_adds_yield ht state
  refine ⟨hitineraries, hmaster, hadded.trans (Nat.zero_add _), fun it hit => ?_⟩
  obtain ⟨s, hs, rfl⟩ := mem_yield hit
  exact (offers_of_mem_ahead (List.mem_of_mem_filter hs)).fillsInTurn ht _

end OffshoreFlights.Pricing.Terms

namespace OffshoreFlights.Neighbours

open Problem (neighbours)

/-- The terms on which a flight to both platforms is worth its tour, and one itinerary may be
added. -/
def paying : Pricing.Terms ℚ := { terms with settings := ⟨1, 1, 0, 1, 1⟩ }

theorem optimum_single : neighbours.optimum {1} = 4 := by
  rw [Problem.optimum, Tour.optimum_singleton]
  decide +kernel

theorem pairs_paying : paying.Pairs .empty 1 2 [] (paying.itinerary [1, 2] 5) :=
  Pricing.Terms.pairs_of_filledFrom (t := paying) (by decide +kernel) (by decide +kernel) rfl
    Nat.one_pos ⟨by decide, by decide⟩
    optimum_single optimum_pair (by decide +kernel) (by decide +kernel) (by decide +kernel)
    (by decide) (by decide +kernel) .empty

/-- The flight to both platforms is what there is to add, and it has a passenger from each. -/
theorem scan_eq_yield_neighbours :
    paying.WellFormed ∧ paying.yield ⟨master, .empty⟩ = [paying.itinerary [1, 2] 5] ∧
      paying.FillsInTurn (paying.itinerary [1, 2] 5) := by
  have ht : paying.WellFormed := ⟨by decide, by decide, by decide⟩
  have hunknown : master.contains (paying.itinerary [1, 2] 5) = false :=
    (MasterProgram.catalogued_reset _ _ _).contains_eq_false (m := master) (by decide +kernel)
  obtain ⟨hitineraries, -, -, hfills⟩ := Pricing.Terms.scan_eq_yield ht ⟨master, .empty⟩
  have hpairs : paying.Pairs (⟨master, .empty⟩ : SolverState _ ℚ).memory 1 2 [] _ := pairs_paying
  obtain ⟨walk, extend, hscan⟩ := hpairs.scan rfl hunknown
  have hyield : paying.yield ⟨master, .empty⟩ = [paying.itinerary [1, 2] 5] := by
    rw [hscan, MasterProgram.add_of_not_contains hunknown] at hitineraries
    exact (List.append_cancel_left hitineraries).symm
  refine ⟨ht, hyield, hfills _ ?_⟩
  rw [hyield]
  exact List.mem_singleton_self _

end OffshoreFlights.Neighbours
