import OffshoreFlights.Proofs.Pricing.Scan

/-! Scans that run out of sets. A scan ends when it has added as many itineraries as it may, or when
its walk through the sets of candidates is exhausted. If it adds fewer, it has priced every set
except those that extend one from which it turned back; and if it adds none, no set that it priced
has a new itinerary to offer. -/

namespace OffshoreFlights

namespace Pricing.Terms

variable {L α : Type} [Scalar α] [Lp.Backend L α] {t : Terms α}

/-- Within some steps, a scan comes to a set of stops and is told a length for its tour. -/
inductive Prices (t : Terms α) : (steps : ℕ) → Scan L α → (stops : List ℕ) → (length : α) → Prop
  | now {steps : ℕ} {scan : Scan L α} {s : List ℕ} {walk : SubsetWalk}
    (hmore : scan.added < t.settings.columnsPerIteration)
    (hnext : scan.walk.next scan.extend = (some s, walk)) :
    Prices t (steps + 1) scan (t.stopsAt s) (t.ask scan.state.memory (t.stopsAt s)).1
  | later {steps : ℕ} {scan : Scan L α} {s : List ℕ} {walk : SubsetWalk} {stops : List ℕ}
    {length : α} (hmore : scan.added < t.settings.columnsPerIteration)
    (hnext : scan.walk.next scan.extend = (some s, walk))
    (h : Prices t steps (t.appraise s (scan.after walk)) stops length) :
    Prices t (steps + 1) scan stops length

/-- A scan refuses to extend a set that is beyond the range or fills the helicopter. -/
def TurnsBack (t : Terms α) (stops : List ℕ) (length : α) : Prop :=
  t.problem.range < length ∨ t.problem.capacity ≤ t.waiting stops

variable {steps : ℕ} {scan : Scan L α} {s stops : List ℕ} {walk : SubsetWalk} {length : α}

theorem scanFrom_of_next (hmore : scan.added < t.settings.columnsPerIteration)
    (hnext : scan.walk.next scan.extend = (some s, walk)) (steps : ℕ) :
    t.scanFrom (steps + 1) scan = t.scanFrom steps (t.appraise s (scan.after walk)) := by
  rw [scanFrom_succ, if_pos hmore, hnext]

/-- What every visit preserves holds when a set is priced. -/
theorem Prices.visit (h : t.Prices steps scan stops length) (hscan : t.Underway scan)
    {P : ℕ → SolverState L α → Prop}
    (hvisit : ∀ stops scan scan', t.Visit stops scan scan' → P scan.added scan.state →
      P scan'.added scan'.state) (hP : P scan.added scan.state) :
    ∃ scan₁ scan₂, t.Visit stops scan₁ scan₂ ∧ P scan₁.added scan₁.state ∧
      length = (t.ask scan₁.state.memory stops).1 := by
  induction h with
  | now _ hnext => exact ⟨_, _, (hscan.visit hnext).1, hP, rfl⟩
  | later _ hnext _ ih =>
    obtain ⟨hv, hscan'⟩ := hscan.visit hnext
    exact ih hscan' (hvisit _ _ _ hv hP)

/-- A scan that adds nothing has no new itinerary to add for any set that it prices. -/
theorem Prices.contains (h : t.Prices steps scan stops length) (hscan : t.Underway scan)
    (hidle : (t.scanFrom steps scan).added = scan.added) (hrange : ¬t.problem.range < length)
    (himproves : t.improves (t.itinerary stops length) = true) :
    scan.state.master.contains (t.itinerary stops length) = true := by
  induction h with
  | @now steps scan s walk hmore hnext =>
    obtain ⟨hvisit, hscan'⟩ := hscan.visit hnext
    rw [scanFrom_of_next hmore hnext] at hidle
    have hle := added_le_scanFrom steps hscan'
    cases hvisit.look with
    | beyondRange h => exact absurd h hrange
    | tooDear _ _ dear => exact absurd (dear.symm.trans himproves) (by simp)
    | held _ _ contains => exact contains
    | new _ _ _ _ added => omega
  | @later steps scan s walk stops length hmore hnext _ ih =>
    obtain ⟨hvisit, hscan'⟩ := hscan.visit hnext
    rw [scanFrom_of_next hmore hnext] at hidle
    have hle := added_le_scanFrom steps hscan'
    have hle' := hvisit.look.added_le
    have hsame : (t.appraise s (scan.after walk)).added = scan.added := by omega
    rw [← hvisit.look.master_eq hsame]
    exact ih hscan' (hidle.trans hsame.symm) hrange himproves

theorem Look.extend_eq {scan scan' : Scan L α} (h : t.Look stops length scan scan')
    (hfree : ¬t.TurnsBack stops length) : scan'.extend = true := by
  obtain ⟨hrange, hseat⟩ := not_or.mp hfree
  cases h with
  | beyondRange h => exact absurd h hrange
  | tooDear _ extend | held _ extend | new _ extend =>
    rw [extend, decide_eq_true_iff]
    exact not_le.mp hseat

section Below

variable (hscan : t.Underway scan)
  (hbelow : (t.scanFrom steps scan).added < t.settings.columnsPerIteration)

include hscan hbelow

/-- A scan that may still add itineraries in the end has exhausted its walk. -/
theorem exhausted_of_added_lt
    (hsteps : (SubsetWalk.remaining t.candidates.length scan.walk.current).card < steps) :
    (t.scanFrom steps scan).walk.exhausted = true := by
  induction steps generalizing scan with
  | zero => omega
  | succ steps ih =>
    have hmore := (added_le_scanFrom (steps + 1) hscan).trans_lt hbelow
    rw [scanFrom_succ, if_pos hmore] at hbelow ⊢
    split at hbelow
    next hnext => exact SubsetWalk.exhausted_of_next hnext
    next s walk hnext =>
      obtain ⟨-, hscan'⟩ := hscan.visit hnext
      obtain ⟨hfollows, -, hcurrent, -⟩ := hscan.walk.follows hnext
      rw [hscan.size] at hfollows
      have hfewer := SubsetWalk.card_remaining_lt hfollows.ascending hfollows.due.1
      refine ih hscan' hbelow ?_
      rw [appraise_walk, show (scan.after walk).walk.current = s from hcurrent]
      omega

/-- A scan that may still add itineraries in the end has priced every set that was due and has no
beginning from which it turned back. -/
theorem prices_of_added_lt
    (hsteps : (SubsetWalk.remaining t.candidates.length scan.walk.current).card ≤ steps)
    {u : List ℕ} (hu : SubsetWalk.Ascending t.candidates.length u)
    (hdue : SubsetWalk.Due scan.extend scan.walk.current u)
    (hfree : ∀ b, SubsetWalk.ProperPrefix b u → ∀ length,
      t.Prices steps scan (t.stopsAt b) length → ¬t.TurnsBack (t.stopsAt b) length) :
    ∃ length, t.Prices steps scan (t.stopsAt u) length := by
  induction steps generalizing scan with
  | zero =>
    have := SubsetWalk.mem_remaining.mpr ⟨hu, hdue.1⟩
    rw [Finset.card_eq_zero.mp (Nat.le_zero.mp hsteps)] at this
    simp at this
  | succ steps ih =>
    have hmore := (added_le_scanFrom (steps + 1) hscan).trans_lt hbelow
    match hnext : scan.walk.next scan.extend with
    | (none, walk) =>
      rw [← hscan.size] at hu
      exact absurd hdue (hscan.walk.not_due hnext hu)
    | (some s, walk) =>
      rw [scanFrom_of_next hmore hnext] at hbelow
      obtain ⟨hvisit, hscan'⟩ := hscan.visit hnext
      obtain ⟨hfollows, -, hcurrent, -⟩ := hscan.walk.follows hnext
      rw [hscan.size] at hfollows
      have hfewer := SubsetWalk.card_remaining_lt hfollows.ascending hfollows.due.1
      have hwalk : (t.appraise s (scan.after walk)).walk.current = s := by
        rw [appraise_walk]
        exact hcurrent
      by_cases hsu : s = u
      · subst hsu
        exact ⟨_, .now hmore hnext⟩
      · -- `s` comes before `u`, which stays due unless the scan turned back from it
        have hextend : s <+: u → (t.appraise s (scan.after walk)).extend = true := fun hbegins =>
          hvisit.look.extend_eq (hfree s ⟨hbegins, hsu⟩ _ (.now hmore hnext))
        obtain ⟨length, hlength⟩ := ih hscan' hbelow (by rw [hwalk]; omega)
          (by rw [hwalk]; exact ⟨lt_of_le_of_ne (hfollows.least u hu hdue) hsu, hextend⟩)
          fun b hb length hprices => hfree b hb length (.later hmore hnext hprices)
        exact ⟨length, .later hmore hnext hlength⟩

end Below

/-! ### Whole scans -/

/-- A scan from a state comes to a set of stops and is told a length for its tour. -/
abbrev ScanPrices (t : Terms α) (state : SolverState L α) (stops : List ℕ) (length : α) : Prop :=
  t.Prices (SubsetWalk.stepBound t.candidates.length)
    ⟨.start t.candidates.length, true, 0, state⟩ stops length

/-- A scan has run out of sets. It has priced every set of candidates except those that extend one
from which it turned back, and none that it priced within the range has an itinerary that improves
the master program and is not in it. -/
structure Complete (t : Terms α) (state : SolverState L α) : Prop where
  exhausted : (t.scan state).walk.exhausted = true
  priced : ∀ stops : List ℕ, stops ≠ [] → stops.Sublist t.candidates →
    (∀ begun, begun <+: stops → begun ≠ stops → ∀ length,
      t.ScanPrices state begun length → ¬t.TurnsBack begun length) →
    ∃ length, t.ScanPrices state stops length
  settled : ∀ stops length, t.ScanPrices state stops length → ¬t.problem.range < length →
    t.improves (t.itinerary stops length) = true →
    state.master.contains (t.itinerary stops length) = true

/-- A scan that adds nothing, though it may, is complete. -/
theorem complete_of_idle (hcolumns : 1 ≤ t.settings.columnsPerIteration)
    {state : SolverState L α} (hidle : (t.scan state).added = 0) : t.Complete state where
  exhausted := exhausted_of_added_lt (underway_start state) (hidle.trans_lt hcolumns)
    (SubsetWalk.card_remaining_lt_stepBound _ _)
  priced stops hne hsublist hfree := by
    obtain ⟨u, hu, rfl⟩ := exists_stopsAt hsublist
    refine prices_of_added_lt (underway_start state) (hidle.trans_lt hcolumns)
      (SubsetWalk.card_remaining_lt_stepBound _ _).le hu ⟨?_, fun _ => rfl⟩ fun b hb => ?_
    · cases u with
      | nil => exact absurd rfl hne
      | cons i u => exact List.nil_lt_cons i u
    · obtain ⟨⟨later, rfl⟩, hbu⟩ := hb
      refine hfree (t.stopsAt b) ?_ fun heq => ?_
      · exact ⟨t.stopsAt later, List.map_append.symm⟩
      · rw [stopsAt, stopsAt, List.map_append, List.self_eq_append_right,
          List.map_eq_nil_iff] at heq
        rw [heq, List.append_nil] at hbu
        exact hbu rfl
  settled stops length hprices := hprices.contains (underway_start state) hidle

/-! ### Settled sets -/

section Exact

variable {K L : Type} [Field K] [LinearOrder K] [FloorRing K] [IsStrictOrderedRing K]
  [Lp.Backend L K] {t : Terms K}

variable (t) in
/-- Nothing is to be gained from a set: its best itinerary is not worth its tour, or is in the
master program. -/
def Settled (m : MasterProgram L K) (stops : List ℕ) : Prop :=
  t.improves (t.itinerary stops (t.problem.optimum stops.toFinset)) = true →
    m.contains (t.itinerary stops (t.problem.optimum stops.toFinset)) = true

/-- A scan that adds nothing, though it may, has settled every set of candidates within the range
that has a seat left before its last stop. -/
theorem settled_of_idle_scan (ht : t.WellFormed) (hsymm : t.problem.Symmetric)
    (htriangle : t.problem.Triangular) (hslack : 0 < t.settings.rangeSlack)
    (hcolumns : 1 ≤ t.settings.columnsPerIteration) {state : SolverState L K}
    (hmemory : state.memory.Sound t.problem) (hidle : (t.scan state).added = 0) {stops : List ℕ}
    (hoffers : t.Offers stops)
    (hrange : t.problem.optimum stops.toFinset ≤ t.problem.range) :
    t.Settled state.master stops := by
  have hcomplete := complete_of_idle hcolumns hidle
  -- the beginnings of the stops are within the range too, and priced at their shortest tours
  have hwithin : ∀ begun length, begun <+: stops → t.ScanPrices state begun length →
      length = t.problem.optimum begun.toFinset ∧ ¬t.problem.range < length := by
    rintro begun length hbegins hprices
    have hle : t.problem.optimum begun.toFinset ≤ t.problem.range := by
      refine (htriangle.optimum_mono (fun i hi => ?_) fun i hi => ?_).trans hrange
      · exact List.mem_toFinset.mpr (hbegins.subset (List.mem_toFinset.mp hi))
      · exact (ht.located i (hoffers.sublist.subset (List.mem_toFinset.mp hi))).2
    obtain ⟨scan, scan', hvisit, hsound, rfl⟩ := hprices.visit (underway_start state)
      (P := fun _ st => st.memory.Sound t.problem)
      (fun _ _ _ hvisit hsound => hvisit.sound ht hsymm hsound) hmemory
    have hlength := ask_of_le_range ht hsymm hslack hsound hvisit.offered hle
    exact ⟨hlength, not_lt.mpr (hlength.trans_le hle)⟩
  obtain ⟨length, hprices⟩ := hcomplete.priced stops hoffers.nonempty hoffers.sublist
    fun begun hbegins hne length hprices hback => by
      obtain ⟨later, rfl⟩ := hbegins
      rcases hback with hbeyond | hfull
      · exact (hwithin begun length (List.prefix_append _ _) hprices).2 hbeyond
      · refine absurd (hoffers.room begun later rfl fun hnil => hne ?_) (not_lt.mpr hfull)
        rw [hnil, List.append_nil]
  obtain ⟨rfl, hrange⟩ := hwithin stops length List.prefix_rfl hprices
  exact hcomplete.settled stops _ hprices hrange

end Exact

end Pricing.Terms

end OffshoreFlights
