import OffshoreFlights.Proofs.Rounding.Service

/-! The itineraries of the master program in the rounds of a rounding. In front stand the platforms'
own, made for the residual demands by every reset. Those behind them have been found by scans, and
whenever passengers are taken off the demands, the ones that no longer fit are deleted. -/

namespace OffshoreFlights

section Useful

variable {α : Type} [Scalar α]

omit [Scalar α] in
theorem Itinerary.fitsWithin_of_servedAt_le {it : Itinerary α} {residual : List ℕ}
    (h : ∀ i, it.servedAt i ≤ residual.getD i 0) : it.fitsWithin residual = true := by
  refine List.all_eq_true.mpr fun pair hpair => ?_
  obtain ⟨i, hi, rfl⟩ := List.mem_iff_getElem.mp hpair
  have hi' : i < it.allocation.length ∧ i < residual.length := by simpa using hi
  have := h i
  rw [servedAt, List.getD_eq_getElem _ _ hi'.1, List.getD_eq_getElem _ _ hi'.2] at this
  rw [List.getElem_zip]
  exact decide_eq_true this

/-- An itinerary that can be flown for the residual demands, and serves somebody. -/
structure Itinerary.Useful (p : Problem α) (residual : List ℕ) (it : Itinerary α) : Prop where
  seated : it.Seated p
  fits : it.fitsWithin residual = true
  carries : 0 < it.passengerCount

theorem Pricing.Terms.Offers.useful {t : Pricing.Terms α} {stops : List ℕ} (h : t.Offers stops)
    (ht : t.WellFormed) (hlength : t.residual.length = t.problem.platformCount + 1)
    (tourLength : α) : (t.itinerary stops tourLength).Useful t.problem t.residual := by
  refine ⟨h.seated ht hlength tourLength, Itinerary.fitsWithin_of_servedAt_le fun i => ?_, ?_⟩
  · rw [h.servedAt ht]
    exact Itinerary.share_le_demand i
  · obtain ⟨i, hi⟩ := List.exists_mem_of_ne_nil stops h.nonempty
    have hserved : 0 < (t.itinerary stops tourLength).servedAt i := by
      rw [← Itinerary.mem_support, h.support ht]
      exact List.mem_toFinset.mpr hi
    exact hserved.trans_le (getD_le_headcount _ i)

end Useful

namespace MasterProgram

variable {L α : Type} [Scalar α] [Lp.Backend L α] {m : MasterProgram L α} {p : Problem α}
  {residual : List ℕ}

/-! ### Within and between rounds -/

/-- Behind the platforms' own itineraries stand useful ones. -/
structure Trim (p : Problem α) (residual : List ℕ) (m : MasterProgram L α) : Prop where
  size : m.basisSize = p.platformCount
  useful : ∀ it ∈ m.itineraries.drop p.platformCount, it.Useful p residual

/-- In front stand the platforms' own itineraries for the residual demands. -/
structure Based (p : Problem α) (residual : List ℕ) (m : MasterProgram L α) : Prop
    extends Trim p residual m where
  basis : m.itineraries.take p.platformCount = basis p residual

theorem trim_start {lp : L} (hrows : Lp.Backend.rowCount lp = p.platformCount) :
    (start lp).Trim p residual := ⟨hrows, by simp [start]⟩

theorem Trim.reset (h : m.Trim p residual) : (m.reset p residual).Based p residual := by
  refine ⟨⟨(basisSize_reset p residual m).trans h.size, ?_⟩, take_reset p residual m⟩
  rw [itineraries_reset, List.drop_left' (length_basis p residual)]
  exact h.useful

omit [Lp.Backend L α] in
theorem Based.le_length (h : m.Based p residual) : p.platformCount ≤ m.itineraries.length :=
  le_length_of_take h.basis

theorem Based.add (h : m.Based p residual) {it : Itinerary α} (hit : it.Useful p residual) :
    (m.add it).2.Based p residual := by
  by_cases hcontains : m.contains it = true
  · rw [add_of_contains hcontains]
    exact h
  · rw [add_of_not_contains (by simpa using hcontains)]
    refine ⟨⟨h.size, ?_⟩, ?_⟩
    · rw [List.drop_append_of_le_length h.le_length]
      intro held hheld
      rcases List.mem_append.mp hheld with hheld | hheld
      · exact h.useful held hheld
      · obtain rfl := List.mem_singleton.mp hheld
        exact hit
    · rw [List.take_append_of_le_length h.le_length]
      exact h.basis

/-- When the demands become less, the itineraries that still fit are useful still. -/
theorem Trim.removeUnfit (h : m.Trim p residual) (left : List ℕ) :
    (m.removeUnfit left).2.Trim p left := by
  refine ⟨(basisSize_removeUnfit m left).trans h.size, fun it hit => ?_⟩
  obtain ⟨hmem, hfits⟩ := mem_drop_removeUnfit h.size hit
  have huseful := h.useful it hmem
  exact ⟨huseful.seated, hfits, huseful.carries⟩

omit [Lp.Backend L α] in
theorem Based.getElem?_basis (h : m.Based p residual) {j : ℕ} (hj : j < p.platformCount) :
    m.itineraries[j]? = some (basisItinerary p residual (j + 1)) := by
  rw [← List.getElem?_take_of_lt hj, h.basis]
  simp [MasterProgram.basis, hj]

omit [Lp.Backend L α] in
theorem Based.carries (h : m.Based p residual) {it : Itinerary α} (hit : it ∈ m.itineraries) :
    it.Seated p ∧ 0 < it.passengerCount := by
  rw [← List.take_append_drop p.platformCount m.itineraries, h.basis] at hit
  rcases List.mem_append.mp hit with hit | hit
  · obtain ⟨j, h1, hj, rfl⟩ := mem_basis.mp hit
    refine ⟨seated_basisItinerary p residual h1 hj, ?_⟩
    rw [passengerCount_basisItinerary p residual hj]
    omega
  · exact ⟨(h.useful it hit).seated, (h.useful it hit).carries⟩

omit [Lp.Backend L α] in
theorem Based.useful_of_le (h : m.Based p residual) {j : ℕ} {it : Itinerary α}
    (hget : m.itineraries[j]? = some it) (hj : p.platformCount ≤ j) : it.Useful p residual := by
  refine h.useful it (List.mem_iff_getElem?.mpr ⟨j - p.platformCount, ?_⟩)
  rw [List.getElem?_drop, Nat.add_sub_cancel' hj, hget]

/-- A platform's own itinerary fits the residual demands if somebody waits there. -/
theorem fitsWithin_basisItinerary {j : ℕ} (hj : j ≤ p.platformCount)
    (hwaiting : 0 < residual.getD j 0) :
    (basisItinerary p residual j).fitsWithin residual = true := by
  refine Itinerary.fitsWithin_of_servedAt_le fun i => ?_
  rw [servedAt_basisItinerary p residual hj]
  split
  next hi =>
    subst hi
    omega
  next => exact Nat.zero_le _

omit [Lp.Backend L α] in
/-- An itinerary that serves a platform where somebody waits fits the residual demands. -/
theorem Based.fitsWithin (h : m.Based p residual) {j : ℕ} {it : Itinerary α}
    (hget : m.itineraries[j]? = some it) {i : ℕ} (hserved : 0 < it.servedAt i)
    (hwaiting : 0 < residual.getD i 0) : it.fitsWithin residual = true := by
  by_cases hj : j < p.platformCount
  · obtain rfl := Option.some.inj ((h.getElem?_basis hj).symm.trans hget)
    obtain rfl := (servedAt_basisItinerary_pos p residual (show j + 1 ≤ p.platformCount from hj)).mp
      hserved
    exact fitsWithin_basisItinerary hj hwaiting
  · exact (h.useful_of_le hget (Nat.le_of_not_lt hj)).fits

end MasterProgram

namespace ColumnGeneration

variable {L α : Type} [Scalar α] [Lp.Backend L α] {p : Problem α} {settings : Settings α}
  {residual : List ℕ}

theorem preserved_based (hlength : residual.length = p.platformCount + 1)
    (settings : Settings α) :
    Preserved (L := L) p settings residual fun st => st.master.Based p residual := by
  refine ⟨fun st h => ⟨⟨h.size, h.useful⟩, h.basis⟩,
    fun t stops scan scan' hp _ hr ht hvisit h => ?_⟩
  subst hp hr
  rcases hvisit.look.master_eq_or_add with hmaster | hmaster <;> rw [hmaster]
  · exact h
  · exact h.add (hvisit.offered.useful ht hlength _)

end ColumnGeneration

end OffshoreFlights
