import OffshoreFlights.Proofs.Pricing.Domination
import OffshoreFlights.Proofs.Pricing.Stock
import OffshoreFlights.Proofs.Rounding.Passed

/-! Pricing scans and the range. A scan asks for a tour up to the range and some slack, and tells
from the answer whether the tour is within the range. What it refuses to extend is truly beyond, in
exact arithmetic. What it adds is within and has its true length, provided that there is some
slack. -/

namespace OffshoreFlights

namespace Pricing.Terms

/-! ### What scans refuse -/

section Walk

variable {L α : Type} [Scalar α] [Lp.Backend L α] {t : Terms α} {state : SolverState L α}
  {stops : List ℕ}

/-- A scan goes to a set of stops whose tour, as the memory answers, is beyond the range. So it
does not extend the set. -/
inductive Refuses (t : Terms α) (state : SolverState L α) : List ℕ → Prop
  | beyond (steps : ℕ) (positions : List ℕ) (walk : SubsetWalk)
    (hcolumns : (t.scanned steps state).added < t.settings.columnsPerIteration)
    (hnext : (t.scanned steps state).walk.next (t.scanned steps state).extend =
      (some positions, walk))
    (hrange : t.problem.range <
      (t.ask (t.scanned steps state).state.memory (t.stopsAt positions)).1) :
    Refuses t state (t.stopsAt positions)

theorem underway_scanFrom (steps : ℕ) {scan : Scan L α} (hscan : t.Underway scan) :
    t.Underway (t.scanFrom steps scan) ∨ (t.scanFrom steps scan).walk.exhausted = true := by
  induction steps generalizing scan with
  | zero => exact .inl hscan
  | succ steps ih =>
    rw [scanFrom_succ]
    split
    · split
      next hnext => exact .inr (SubsetWalk.exhausted_of_next hnext)
      next hnext => exact ih (hscan.visit hnext).2
    · exact .inl hscan

theorem underway_of_next {steps : ℕ} {positions : List ℕ} {walk : SubsetWalk}
    (hnext : (t.scanned steps state).walk.next (t.scanned steps state).extend =
      (some positions, walk)) : t.Underway (t.scanned steps state) := by
  rcases underway_scanFrom steps (underway_start (t := t) state) with hscan | hexhausted
  · exact hscan
  · rw [SubsetWalk.next, if_pos (by exact hexhausted)] at hnext
    cases hnext

end Walk

variable {K L : Type} [Field K] [LinearOrder K] [FloorRing K] [IsStrictOrderedRing K]
  [Lp.Backend L K] {t : Terms K} {state : SolverState L K} {stops : List ℕ}

theorem sound_scanned (ht : t.WellFormed) (hsymm : t.problem.Symmetric)
    (hmemory : state.memory.Sound t.problem) (steps : ℕ) :
    (t.scanned steps state).state.memory.Sound t.problem := by
  exact scanFrom_preserves (P := fun _ st => st.memory.Sound t.problem)
    (fun _ _ _ hvisit hsound => hvisit.sound ht hsymm hsound) steps (underway_start state) hmemory

/-- Every tour through stops that a scan refuses to extend is beyond the range. -/
theorem Refuses.range_lt (h : t.Refuses state stops) (ht : t.WellFormed)
    (hsymm : t.problem.Symmetric) (hmemory : state.memory.Sound t.problem) :
    t.problem.range < t.problem.optimum stops.toFinset := by
  cases h with
  | beyond steps positions walk hcolumns hnext hrange =>
    have hoffers := ((underway_of_next hnext).visit hnext).1.offered
    rw [ask_eq_min ht hsymm (sound_scanned ht hsymm hmemory steps) hoffers] at hrange
    exact hrange.trans_le (min_le_right _ _)

/-! ### What scans add -/

end Pricing.Terms

/-- An itinerary as scans add them. It serves all its platforms. Its length is at most the range,
and with slack it is that of the shortest tour. -/
structure Itinerary.Limited {K : Type} [Field K] [LinearOrder K] [FloorRing K] (p : Problem K)
    (settings : Settings K) (it : Itinerary K) : Prop where
  located : ∀ i ∈ it.platforms.members, 1 ≤ i ∧ i ≤ p.platformCount
  served : it.support = it.platforms.members
  capped : 0 ≤ settings.rangeSlack → it.tourLength = min p.range (p.optimum it.platforms.members)
  within : 0 < settings.rangeSlack → p.optimum it.platforms.members ≤ p.range

variable {K L : Type} [Field K] [LinearOrder K] [FloorRing K] [Lp.Backend L K]

theorem Itinerary.Limited.tourLength_eq {p : Problem K} {settings : Settings K} {it : Itinerary K}
    (h : it.Limited p settings) (hslack : 0 < settings.rangeSlack) :
    it.tourLength = p.optimum it.platforms.members :=
  (h.capped hslack.le).trans (min_eq_right (h.within hslack))

variable [IsStrictOrderedRing K]

namespace Pricing.Terms

variable {t : Terms K} {stops : List ℕ}

/-- With slack, a tour that passes for one within the range is within it. -/
theorem Offers.optimum_le_range (h : t.Offers stops) (ht : t.WellFormed)
    (hsymm : t.problem.Symmetric) (hslack : 0 < t.settings.rangeSlack) {memory : TourMemory K}
    (hmemory : memory.Sound t.problem) (hrange : ¬t.problem.range < (t.ask memory stops).1) :
    t.problem.optimum stops.toFinset ≤ t.problem.range := by
  rw [ask_eq_min ht hsymm hmemory h, lt_min_iff, not_and, not_lt] at hrange
  exact hrange (lt_add_of_pos_right _ hslack)

theorem Offers.limited (h : t.Offers stops) (ht : t.WellFormed) (hsymm : t.problem.Symmetric)
    {memory : TourMemory K} (hmemory : memory.Sound t.problem)
    (hrange : ¬t.problem.range < (t.ask memory stops).1) :
    (t.itinerary stops (t.ask memory stops).1).Limited t.problem t.settings := by
  have hlength := ask_eq_min ht hsymm hmemory h
  have hmembers : (t.itinerary stops (t.ask memory stops).1).platforms.members =
      stops.toFinset := TourMemory.members_of_askable (h.askable ht)
  refine ⟨?_, ?_, ?_, ?_⟩
  · intro i hi
    rw [hmembers, List.mem_toFinset] at hi
    exact ht.located i (h.sublist.subset hi)
  · rw [hmembers]
    exact h.support ht _
  · intro hslack
    rw [hmembers]
    show (t.ask memory stops).1 = _
    apply le_antisymm
    · exact le_min (not_lt.mp hrange) (hlength.trans_le (min_le_right _ _))
    · rw [hlength]
      exact min_le_min_right _ (le_add_of_nonneg_right hslack)
  · intro hslack
    rw [hmembers]
    exact h.optimum_le_range ht hsymm hslack hmemory hrange

theorem Visit.adds (ht : t.WellFormed) (hsymm : t.problem.Symmetric) {scan scan' : Scan L K}
    (hvisit : t.Visit stops scan scan') (hmemory : scan.state.memory.Sound t.problem) :
    ∃ added : List (Itinerary K),
      scan'.state.master.itineraries = scan.state.master.itineraries ++ added ∧
        ∀ it ∈ added, it.Limited t.problem t.settings := by
  cases hvisit.look with
  | beyondRange _ _ _ master | tooDear _ _ _ _ master | held _ _ _ _ master =>
    exact ⟨[], by simp [master], by simp⟩
  | new hrange _ _ hunknown _ master =>
    refine ⟨[t.itinerary stops (t.ask scan.state.memory stops).1], ?_, ?_⟩
    · rw [master, MasterProgram.add_of_not_contains hunknown]
    · simpa using hvisit.offered.limited ht hsymm hmemory hrange

theorem scan_adds (t : Terms K) (ht : t.WellFormed) (hsymm : t.problem.Symmetric)
    {state : SolverState L K} (hmemory : state.memory.Sound t.problem) :
    ∃ added : List (Itinerary K),
      (t.scan state).state.master.itineraries = state.master.itineraries ++ added ∧
        ∀ it ∈ added, it.Limited t.problem t.settings := by
  refine (scan_preserves (P := fun _ st => st.memory.Sound t.problem ∧
    ∃ added : List (Itinerary K), st.master.itineraries = state.master.itineraries ++ added ∧
      ∀ it ∈ added, it.Limited t.problem t.settings) ?_ ⟨hmemory, [], by simp, by simp⟩).2
  rintro stops scan scan' hvisit ⟨hsound, earlier, hearlier, hlimited⟩
  obtain ⟨later, hlater, hlimited'⟩ := hvisit.adds ht hsymm hsound
  refine ⟨hvisit.sound ht hsymm hsound, earlier ++ later, ?_, ?_⟩
  · rw [hlater, hearlier, List.append_assoc]
  · intro it hit
    rcases List.mem_append.mp hit with hit | hit
    · exact hlimited it hit
    · exact hlimited' it hit

end Pricing.Terms

/-! ### Single questions -/

theorem TourMemory.FilledFrom.ask_eq_min {t : Pricing.Terms K} {memory : TourMemory K}
    (h : memory.FilledFrom t.problem) (hsymm : t.problem.Symmetric) {stops : List ℕ}
    (hstops : t.problem.Askable stops) (hne : stops ≠ []) : (t.ask memory stops).1 =
      min (t.problem.range + t.settings.rangeSlack) (t.problem.optimum stops.toFinset) :=
  (h.sound hsymm).tourLength hsymm hstops hne _

/-- A memory that knows nothing has the trip to one platform searched for, for which it is enough
that the ways out and home are the same. -/
theorem Pricing.Terms.ask_empty_single (t : Terms K) {i : ℕ}
    (h : t.problem.distance 0 i = t.problem.distance i 0) : (t.ask .empty [i]).1 =
      min (t.problem.range + t.settings.rangeSlack)
        (t.problem.distance 0 i + t.problem.distance i 0) := by
  rw [ask, TourMemory.tourLength_run, ← Tour.optimum_singleton]
  simp only [TourMemory.empty, Std.HashMap.getElem?_empty, TourMemory.decided?]
  refine Tour.shortest_eq_min t.problem.zero_le_distance (List.cons_ne_nil i [])
    (List.nodup_singleton i) ?_ _
  simp [h]

end OffshoreFlights
