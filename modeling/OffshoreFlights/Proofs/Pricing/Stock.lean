import OffshoreFlights.Proofs.ColumnGeneration

/-! The itineraries that the master program ever holds. They are the platforms' own and those that
scans offer, so what these have in common all of them have: seats for their passengers, and tours no
longer than the shortest one through the platforms that they serve. -/

namespace OffshoreFlights

namespace Itinerary

variable {α : Type}

/-- The locations that an itinerary serves. -/
def support (it : Itinerary α) : Finset ℕ :=
  (Finset.range it.allocation.length).filter fun i => 0 < it.servedAt i

theorem mem_support {it : Itinerary α} {i : ℕ} : i ∈ it.support ↔ 0 < it.servedAt i := by
  simp only [support, Finset.mem_filter, Finset.mem_range, and_iff_right_iff_imp]
  intro h
  by_contra hi
  rw [servedAt, List.getD_eq_default _ _ (by omega)] at h
  omega

theorem support_congr {it it' : Itinerary α} (h : it.allocation = it'.allocation) :
    it.support = it'.support := by
  unfold support servedAt
  rw [h]

/-- An itinerary counts passengers for each location of a problem, none for the depot, and has seats
for all of them. -/
structure Seated [Scalar α] (p : Problem α) (it : Itinerary α) : Prop where
  length : it.allocation.length = p.platformCount + 1
  depot : it.servedAt 0 = 0
  seats : it.passengerCount ≤ p.capacity

end Itinerary

/-! ### The platforms' own itineraries -/

namespace MasterProgram

variable {α : Type} [Scalar α] (p : Problem α) (residual : List ℕ) {j : ℕ}

theorem servedAt_basisItinerary (hj : j ≤ p.platformCount) (i : ℕ) :
    (basisItinerary p residual j).servedAt i =
      if i = j then max (min p.capacity (residual.getD j 0)) 1 else 0 := by
  rw [Itinerary.servedAt, basisItinerary]
  split
  next h =>
    subst h
    rw [List.getD_eq_getElem _ _ (by simp; omega), List.getElem_set_self]
  next h =>
    rw [Itinerary.getD_set_ne (Ne.symm h)]
    by_cases hi : i < p.platformCount + 1
    · exact List.getD_replicate _ hi
    · exact List.getD_eq_default _ _ (by simpa using hi)

/-- Somebody is served at the platform, also where nobody waits any more. -/
theorem servedAt_basisItinerary_pos (hj : j ≤ p.platformCount) {i : ℕ} :
    0 < (basisItinerary p residual j).servedAt i ↔ i = j := by
  rw [servedAt_basisItinerary p residual hj]
  split
  next h => exact ⟨fun _ => h, fun _ => by omega⟩
  next h => exact ⟨fun h0 => absurd h0 (lt_irrefl 0), fun hi => absurd hi h⟩

theorem support_basisItinerary (hj : j ≤ p.platformCount) :
    (basisItinerary p residual j).support = {j} := by
  ext i
  rw [Itinerary.mem_support, Finset.mem_singleton]
  exact servedAt_basisItinerary_pos p residual hj

theorem passengerCount_basisItinerary (hj : j ≤ p.platformCount) :
    (basisItinerary p residual j).passengerCount = max (min p.capacity (residual.getD j 0)) 1 := by
  rw [Itinerary.passengerCount, basisItinerary,
    headcount_set (by simp; omega) (List.getD_replicate _ (by omega))]
  simp [headcount_eq_sum]

theorem seated_basisItinerary (h1 : 1 ≤ j) (hj : j ≤ p.platformCount) :
    (basisItinerary p residual j).Seated p := by
  refine ⟨by simp [basisItinerary], ?_, ?_⟩
  · rw [servedAt_basisItinerary p residual hj, if_neg (by omega)]
  · have := p.valid.seats
    rw [passengerCount_basisItinerary p residual hj]
    omega

end MasterProgram

/-! ### The itineraries that scans offer -/

namespace Pricing.Terms

variable {α : Type} [Scalar α] {t : Terms α} {stops : List ℕ}

theorem Offers.servedAt (h : t.Offers stops) (ht : t.WellFormed) (tourLength : α) (i : ℕ) :
    (t.itinerary stops tourLength).servedAt i =
      Itinerary.share t.residual t.problem.capacity stops i :=
  Itinerary.servedAt_firstServed (h.sublist.nodup ht.nodup)
    (fun _ hi => ht.lt_length (h.sublist.subset hi)) i

theorem Offers.support (h : t.Offers stops) (ht : t.WellFormed) (tourLength : α) :
    (t.itinerary stops tourLength).support = stops.toFinset := by
  ext i
  rw [Itinerary.mem_support, h.servedAt ht, List.mem_toFinset]
  constructor
  · intro hserved
    by_contra hi
    rw [Itinerary.share_of_notMem hi] at hserved
    omega
  · exact Itinerary.share_pos (fun i hi => ht.demanded i (h.sublist.subset hi)) h.room

theorem Offers.seated (h : t.Offers stops) (ht : t.WellFormed)
    (hlength : t.residual.length = t.problem.platformCount + 1) (tourLength : α) :
    (t.itinerary stops tourLength).Seated t.problem := by
  refine ⟨?_, ?_, ?_⟩
  · rw [itinerary, Itinerary.length_allocation_firstServed, hlength]
  · rw [h.servedAt ht, Itinerary.share_of_notMem]
    intro h0
    have := (ht.located 0 (h.sublist.subset h0)).1
    omega
  · rw [itinerary, Itinerary.passengerCount_firstServed (h.sublist.nodup ht.nodup)
      fun i hi => ht.lt_length (h.sublist.subset hi)]
    exact Nat.min_le_left _ _

end Pricing.Terms

namespace ColumnGeneration

variable {L α : Type} [Scalar α] [Lp.Backend L α] {p : Problem α} {settings : Settings α}
  {residual : List ℕ}

/-- What holds of all itineraries that scans offer and of those present holds of all in the end. -/
theorem preserved_itineraries {Q : Itinerary α → Prop}
    (hoffered : ∀ (t : Pricing.Terms α) stops length, t.problem = p → t.residual = residual →
      t.WellFormed → t.Offers stops → Q (t.itinerary stops length)) :
    Preserved (L := L) p settings residual fun st => ∀ it ∈ st.master.itineraries, Q it := by
  refine ⟨fun st h => h, fun t stops scan scan' hp _ hr ht hvisit h => ?_⟩
  rcases hvisit.look.master_eq_or_add with hmaster | hmaster <;> rw [hmaster]
  · exact h
  · intro it hit
    rcases MasterProgram.mem_itineraries_add hit with hit | rfl
    · exact h it hit
    · exact hoffered t stops _ hp hr ht hvisit.offered

theorem generate_seated (hlength : residual.length = p.platformCount + 1)
    {state final : SolverState L α} (h : ∀ it ∈ state.master.itineraries, it.Seated p)
    {result : Except (Error α) (Outcome α)}
    (hrun : generate p settings residual state = (result, final)) :
    ∀ it ∈ final.master.itineraries, it.Seated p := by
  rw [show final = (generate p settings residual state).2 by rw [hrun]]
  refine generate_preserves (P := fun st => ∀ it ∈ st.master.itineraries, it.Seated p)
    (preserved_itineraries ?_) ?_ fun _ => h
  · rintro t stops length rfl rfl ht hoffers
    exact hoffers.seated ht hlength length
  · intro _ it hit
    rcases MasterProgram.mem_itineraries_reset hit with ⟨j, h1, hj, rfl⟩ | hit
    · exact MasterProgram.seated_basisItinerary p residual h1 hj
    · exact h it hit

end ColumnGeneration

/-! ### Tours -/

namespace MasterProgram

variable {K L : Type} [Field K] [LinearOrder K] [FloorRing K] [Lp.Backend L K]

/-- No itinerary is charged more than the shortest tour through the platforms that it serves. -/
def Stocked (p : Problem K) (m : MasterProgram L K) : Prop :=
  ∀ it ∈ m.itineraries, it.tourLength ≤ p.optimum it.support

variable {p : Problem K} {m : MasterProgram L K}

theorem stocked_start (p : Problem K) (lp : L) : (start lp).Stocked p := by
  intro it h
  simp [start] at h

theorem Stocked.reset (h : m.Stocked p) (residual : List ℕ) : (m.reset p residual).Stocked p := by
  intro it hit
  rcases mem_itineraries_reset hit with ⟨j, -, hj, rfl⟩ | hit
  · rw [support_basisItinerary p residual hj, Problem.optimum, Tour.optimum_singleton]
    rfl
  · exact h it hit

theorem Stocked.removeUnfit (h : m.Stocked p) (residual : List ℕ) :
    (m.removeUnfit residual).2.Stocked p :=
  fun it hit => h it (mem_itineraries_removeUnfit hit)

end MasterProgram

namespace ColumnGeneration

variable {K L : Type} [Field K] [LinearOrder K] [FloorRing K] [IsStrictOrderedRing K]
  [Lp.Backend L K] {p : Problem K} {settings : Settings K} {residual : List ℕ}

theorem preserved_stocked (hsymm : p.Symmetric) (settings : Settings K) (residual : List ℕ) :
    Preserved (L := L) p settings residual fun st =>
      st.memory.FilledFrom p ∧ st.master.Stocked p := by
  refine ⟨fun st h => h, fun t stops scan scan' hp hs hr ht hvisit h => ?_⟩
  have hfilled := preserved_filledFrom (L := L) p settings residual
  refine ⟨hfilled.visit t stops scan scan' hp hs hr ht hvisit h.1, ?_⟩
  rcases hvisit.look.master_eq_or_add with hmaster | hmaster <;> rw [hmaster]
  · exact h.2
  · intro it hit
    rcases MasterProgram.mem_itineraries_add hit with hit | rfl
    · exact h.2 it hit
    · subst hp
      rw [hvisit.offered.support ht]
      show (t.ask scan.state.memory stops).1 ≤ _
      rw [Pricing.Terms.ask_eq_min ht hsymm (h.1.sound hsymm) hvisit.offered]
      exact min_le_right _ _

theorem generate_stocked (hsymm : p.Symmetric) {state : SolverState L K}
    (hmemory : state.memory.FilledFrom p) (h : state.master.Stocked p) :
    (generate p settings residual state).2.master.Stocked p :=
  (generate_preserves (preserved_stocked hsymm settings residual)
    (fun _ => ⟨hmemory, h.reset residual⟩) fun _ => ⟨hmemory, h⟩).2

end ColumnGeneration

end OffshoreFlights
