import Mathlib.Algebra.Order.BigOperators.Group.Finset
import OffshoreFlights.Proofs.Itinerary.Worth
import OffshoreFlights.Proofs.Pricing.Exhaustion
import OffshoreFlights.Proofs.Pricing.Stock

/-! Why a scan need not look at every set nor at every way to fill the seats: whatever could be
flown, an itinerary that the scan considers is no dearer. -/

namespace OffshoreFlights

/-- A flight that a problem admits: platforms that one tour within the range can reach, and no more
passengers for them than there are seats. -/
structure Problem.Sortie {K : Type} [Field K] [LinearOrder K] [FloorRing K] (p : Problem K) where
  platforms : Finset ℕ
  load : ℕ → ℕ
  located : ∀ i ∈ platforms, 1 ≤ i ∧ i ≤ p.platformCount
  within_range : p.optimum platforms ≤ p.range
  supported : ∀ i, i ∉ platforms → load i = 0
  seated : ∑ i ∈ platforms, load i ≤ p.capacity

variable {K : Type} [Field K] [LinearOrder K] [FloorRing K]

/-- The shortest tour of a sortie less the worth of its passengers. -/
def Problem.Sortie.reducedCost {p : Problem K} (s : p.Sortie) (y : ℕ → K) : K :=
  p.optimum s.platforms - ∑ i ∈ s.platforms, (s.load i : K) * y i

namespace Itinerary

/-- Stops in turn up to the one that takes the last seat, if there is one. -/
theorem exists_filling_prefix (demands : List ℕ) {seats : ℕ} (hseats : 0 < seats)
    {stops : List ℕ} (hstops : stops ≠ []) :
    ∃ first later, first ++ later = stops ∧ first ≠ [] ∧
      (∀ begun rest, begun ++ rest = first → rest ≠ [] → waitingAt demands begun < seats) ∧
      (later = [] ∨ seats ≤ waitingAt demands first) := by
  induction stops generalizing seats with
  | nil => exact absurd rfl hstops
  | cons p rest ih =>
    have hsingle : ∀ begun more, begun ++ more = [p] → more ≠ [] →
        waitingAt demands begun < seats := by
      intro begun more happend hmore
      cases begun with
      | nil => exact hseats
      | cons q begun =>
        have := congrArg List.length happend
        have := List.length_pos_iff.mpr hmore
        simp only [List.length_append, List.length_cons, List.length_nil] at *
        omega
    by_cases hfull : seats ≤ demands.getD p 0
    · exact ⟨[p], rest, rfl, by simp, hsingle, .inr (by simpa using hfull)⟩
    · by_cases hrest : rest = []
      · exact ⟨[p], rest, rfl, by simp, hsingle, .inl hrest⟩
      · obtain ⟨first, later, happend, hne, hroom, hlast⟩ :=
          ih (show 0 < seats - demands.getD p 0 by omega) hrest
        refine ⟨p :: first, later, by rw [List.cons_append, happend], by simp, ?_, ?_⟩
        · intro begun more hmore hne
          cases begun with
          | nil => exact hseats
          | cons q begun =>
            obtain ⟨rfl, htail⟩ := List.cons_eq_cons.mp hmore
            have := hroom begun more htail hne
            rw [waitingAt_cons]
            omega
        · refine hlast.imp_right fun h => ?_
          rw [waitingAt_cons]
          omega

omit [LinearOrder K] [FloorRing K] in
theorem worth_share_append {demands : List ℕ} {seats : ℕ} {first later : List ℕ} (y : ℕ → K)
    (hnodup : (first ++ later).Nodup) (hlast : later = [] ∨ seats ≤ waitingAt demands first) :
    worth y (share demands seats (first ++ later)) (first ++ later) =
      worth y (share demands seats first) first := by
  rcases hlast with rfl | hfull
  · rw [List.append_nil]
  · have hdisjoint := (List.nodup_append.mp hnodup).2.2
    rw [worth_congr fun i _ => share_append_of_full hfull i]
    unfold worth
    rw [List.map_append, List.sum_append, add_eq_left]
    refine List.sum_eq_zero fun x hx => ?_
    obtain ⟨i, hi, rfl⟩ := List.mem_map.mp hx
    rw [share_of_notMem fun hfirst => hdisjoint i hfirst i hi rfl, Nat.cast_zero, zero_mul]

end Itinerary

namespace Pricing

/-- The order by falling dual value puts the platforms that are worth more first. -/
theorem pairwise_byFallingDual (duals : List K) (platforms : List ℕ) :
    (byFallingDual duals platforms).Pairwise fun i j => duals.getD j 0 ≤ duals.getD i 0 := by
  have hsorted : (byFallingDual duals platforms).Pairwise fun i j =>
      (Scalar.compareTotal (duals.getD j 0) (duals.getD i 0)).isLE = true := by
    refine List.pairwise_mergeSort (fun i j k => ?_) (fun i j => ?_) platforms
    · simp only [Scalar.isLE_compareTotal_exact]
      exact fun hij hjk => hjk.trans hij
    · simp only [Bool.or_eq_true, Scalar.isLE_compareTotal_exact]
      exact le_total _ _
  exact hsorted.imp fun h => (Scalar.isLE_compareTotal_exact _ _).mp h

/-- Platforms that are by falling dual value already keep their order. -/
theorem byFallingDual_of_pairwise {duals : List K} {platforms : List ℕ}
    (h : platforms.Pairwise fun i j => duals.getD j 0 ≤ duals.getD i 0) :
    byFallingDual duals platforms = platforms :=
  List.mergeSort_of_pairwise (h.imp fun hij => (Scalar.isLE_compareTotal_exact _ _).mpr hij)

namespace Terms

variable {L : Type} [Lp.Backend L K] {t : Terms K}

/-- The candidates of a sortie that are worth a seat, in the order of the scan. -/
def worthwhile (t : Terms K) (s : t.problem.Sortie) : List ℕ :=
  t.candidates.filter fun i => decide (i ∈ s.platforms ∧ 0 < s.load i ∧ 0 ≤ t.duals.getD i 0)

variable [IsStrictOrderedRing K]

/-- The other passengers of a sortie are worth nothing. -/
theorem sum_le_worth_worthwhile (ht : t.WellFormed) (s : t.problem.Sortie)
    (hcandidates : ∀ i ∈ s.platforms, 0 < s.load i → i ∈ t.candidates) :
    ∑ i ∈ s.platforms, (s.load i : K) * t.duals.getD i 0 ≤
      Itinerary.worth (fun i => t.duals.getD i 0) s.load (t.worthwhile s) := by
  have hset : (t.worthwhile s).toFinset =
      s.platforms.filter fun i => 0 < s.load i ∧ 0 ≤ t.duals.getD i 0 := by
    ext i
    simp only [worthwhile, List.mem_toFinset, List.mem_filter, decide_eq_true_eq,
      Finset.mem_filter]
    exact ⟨fun h => h.2, fun h => ⟨hcandidates i h.1 h.2.1, h⟩⟩
  have hnodup : (t.worthwhile s).Nodup := ht.nodup.filter _
  rw [Itinerary.worth_eq_sum hnodup, hset,
    ← Finset.sum_filter_add_sum_filter_not s.platforms
      (fun i => 0 < s.load i ∧ 0 ≤ t.duals.getD i 0)]
  refine add_le_of_nonpos_right (Finset.sum_nonpos fun i hi => ?_)
  obtain ⟨-, hi⟩ := Finset.mem_filter.mp hi
  by_cases hload : 0 < s.load i
  · have hdual : t.duals.getD i 0 < 0 := not_le.mp fun h => hi ⟨hload, h⟩
    exact mul_nonpos_of_nonneg_of_nonpos (Nat.cast_nonneg _) hdual.le
  · rw [Nat.eq_zero_of_not_pos hload, Nat.cast_zero, zero_mul]

/-- The itinerary of a set that can be flown is no dearer than any sortie whose worthwhile stops
begin with the set, up to the last seat. -/
theorem itinerary_le_sortie (ht : t.WellFormed) (htriangle : t.problem.Triangular)
    (hfalling : t.candidates.Pairwise fun i j => t.duals.getD j 0 ≤ t.duals.getD i 0)
    (s : t.problem.Sortie) (hcandidates : ∀ i ∈ s.platforms, 0 < s.load i → i ∈ t.candidates)
    (hload : ∀ i, s.load i ≤ t.residual.getD i 0) {first later : List ℕ}
    (happend : first ++ later = t.worthwhile s)
    (hlast : later = [] ∨ t.problem.capacity ≤ Itinerary.waitingAt t.residual first) :
    t.problem.optimum first.toFinset ≤ t.problem.optimum s.platforms ∧
      (t.itinerary first (t.problem.optimum first.toFinset)).reducedCost t.duals ≤
        s.reducedCost fun i => t.duals.getD i 0 := by
  have hnodup : (t.worthwhile s).Nodup := ht.nodup.filter _
  have hworthwhile : ∀ i ∈ t.worthwhile s,
      i ∈ t.candidates ∧ i ∈ s.platforms ∧ 0 ≤ t.duals.getD i 0 := by
    intro i hi
    obtain ⟨hi, hcond⟩ := List.mem_filter.mp hi
    obtain ⟨hs, -, hdual⟩ := of_decide_eq_true hcond
    exact ⟨hi, hs, hdual⟩
  have hfirst : ∀ i ∈ first, i ∈ t.worthwhile s := fun i hi =>
    happend ▸ List.mem_append_left later hi
  have hoptimum : t.problem.optimum first.toFinset ≤ t.problem.optimum s.platforms :=
    htriangle.optimum_mono (fun i hi => (hworthwhile i (hfirst i (List.mem_toFinset.mp hi))).2.1)
      fun i hi => (s.located i hi).2
  have hseats : ((t.worthwhile s).map s.load).sum ≤ t.problem.capacity :=
    calc ((t.worthwhile s).map s.load).sum
        = ∑ i ∈ (t.worthwhile s).toFinset, s.load i := (List.sum_toFinset _ hnodup).symm
      _ ≤ ∑ i ∈ s.platforms, s.load i :=
          Finset.sum_le_sum_of_subset fun i hi => (hworthwhile i (List.mem_toFinset.mp hi)).2.1
      _ ≤ t.problem.capacity := s.seated
  have hworth : ∑ i ∈ s.platforms, (s.load i : K) * t.duals.getD i 0 ≤
      Itinerary.worth (fun i => t.duals.getD i 0)
        (Itinerary.share t.residual t.problem.capacity first) first := by
    refine (sum_le_worth_worthwhile ht s hcandidates).trans
      ((Itinerary.worth_le_worth_share (fun i hi => (hworthwhile i hi).2.2) (hfalling.filter _)
        hnodup (fun i _ => hload i) hseats).trans_eq ?_)
    rw [← happend]
    exact Itinerary.worth_share_append _ (happend ▸ hnodup) hlast
  refine ⟨hoptimum, ?_⟩
  have hnodup_first : first.Nodup := (List.nodup_append.mp (happend ▸ hnodup)).1
  rw [itinerary, Itinerary.reducedCost_firstServed hnodup_first
    fun i hi => ht.lt_length (hworthwhile i (hfirst i hi)).1, Problem.Sortie.reducedCost]
  linarith

/-- After a scan that adds nothing, no sortie is worth more than its tour, but for those that some
itinerary in the master program betters. -/
theorem sortie_of_idle_scan (ht : t.WellFormed) (hsymm : t.problem.Symmetric)
    (htriangle : t.problem.Triangular) (hslack : 0 < t.settings.rangeSlack)
    (htolerance : 0 ≤ t.settings.tolerance) (hcolumns : 1 ≤ t.settings.columnsPerIteration)
    (hfalling : t.candidates.Pairwise fun i j => t.duals.getD j 0 ≤ t.duals.getD i 0)
    {state : SolverState L K} (hmemory : state.memory.Sound t.problem)
    (hcatalogued : state.master.Catalogued) (hstocked : state.master.Stocked t.problem)
    (hidle : (t.scan state).added = 0) (s : t.problem.Sortie)
    (hcandidates : ∀ i ∈ s.platforms, 0 < s.load i → i ∈ t.candidates)
    (hload : ∀ i, s.load i ≤ t.residual.getD i 0) :
    -t.settings.tolerance ≤ (s.reducedCost fun i => t.duals.getD i 0) ∨
      ∃ it ∈ state.master.itineraries,
        it.reducedCost t.duals ≤ s.reducedCost fun i => t.duals.getD i 0 := by
  by_cases hnone : t.worthwhile s = []
  · left
    have hsum := sum_le_worth_worthwhile ht s hcandidates
    rw [hnone] at hsum
    have hworthless : ∑ i ∈ s.platforms, (s.load i : K) * t.duals.getD i 0 ≤ 0 := hsum
    have hpos := t.problem.optimum_nonneg s.platforms
    rw [Problem.Sortie.reducedCost]
    linarith
  · obtain ⟨first, later, happend, hne, hroom, hlast⟩ :=
      Itinerary.exists_filling_prefix t.residual t.problem.valid.seats hnone
    obtain ⟨hoptimum, hcost⟩ :=
      itinerary_le_sortie ht htriangle hfalling s hcandidates hload happend hlast
    have hsub : first.Sublist t.candidates :=
      (happend ▸ List.sublist_append_left first later).trans List.filter_sublist
    have hoffers : t.Offers first := ⟨hne, hsub, hroom⟩
    have hsettled := settled_of_idle_scan ht hsymm htriangle hslack hcolumns hmemory hidle hoffers
      (hoptimum.trans s.within_range)
    by_cases himproves :
        t.improves (t.itinerary first (t.problem.optimum first.toFinset)) = true
    · right
      obtain ⟨held, hheld, hallocation⟩ := (hcatalogued _).mp (hsettled himproves)
      refine ⟨held, hheld,
        (Itinerary.reducedCost_le_of_allocation hallocation ?_ t.duals).trans hcost⟩
      have htour := hstocked held hheld
      rw [Itinerary.support_congr hallocation, hoffers.support ht] at htour
      exact htour
    · left
      have hdear := not_lt.mp fun h => himproves (decide_eq_true h)
      exact hdear.trans hcost

end Terms

end Pricing

end OffshoreFlights
