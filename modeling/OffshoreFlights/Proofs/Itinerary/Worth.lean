import Mathlib.Algebra.BigOperators.Fin
import Mathlib.Tactic.LinearCombination
import OffshoreFlights.Proofs.Exact
import OffshoreFlights.Proofs.Itinerary.Shares

/-! What the passengers of an itinerary are worth in exact arithmetic. When stops are served in the
order of falling worth, no other passengers on board would be worth more. -/

namespace OffshoreFlights.Itinerary

variable {K : Type} [Field K] [LinearOrder K] [FloorRing K]

theorem reducedCost_eq_sum_range (it : Itinerary K) (duals : List K) :
    it.reducedCost duals = it.tourLength -
      ∑ i ∈ Finset.range it.allocation.length, (it.servedAt i : K) * duals.getD i 0 := by
  unfold reducedCost servedAt
  generalize it.tourLength = cost
  generalize it.allocation = allocation
  induction allocation generalizing cost duals with
  | nil => simp
  | cons w allocation ih =>
    cases duals with
    | nil => simp
    | cons y duals =>
      rw [List.zip_cons_cons, List.foldl_cons, ih, List.length_cons, Finset.sum_range_succ']
      simp only [List.getD_cons_succ, List.getD_cons_zero]
      show cost - (w : K) * y - _ = _
      ring

/-- Of two itineraries with the same passengers, the one with the shorter tour is no dearer. -/
theorem reducedCost_le_of_allocation [IsStrictOrderedRing K] {it it' : Itinerary K}
    (hallocation : it.allocation = it'.allocation) (htour : it.tourLength ≤ it'.tourLength)
    (duals : List K) : it.reducedCost duals ≤ it'.reducedCost duals := by
  rw [reducedCost_eq_sum_range, reducedCost_eq_sum_range]
  unfold servedAt
  rw [hallocation]
  linarith

/-- The worth of passengers for each location, over a list of stops. -/
def worth (y : ℕ → K) (load : ℕ → ℕ) (stops : List ℕ) : K :=
  (stops.map fun i => (load i : K) * y i).sum

omit [LinearOrder K] [FloorRing K] in
@[simp] theorem worth_cons (y : ℕ → K) (load : ℕ → ℕ) (p : ℕ) (rest : List ℕ) :
    worth y load (p :: rest) = (load p : K) * y p + worth y load rest := by
  simp [worth]

omit [LinearOrder K] [FloorRing K] in
theorem worth_congr {y : ℕ → K} {load load' : ℕ → ℕ} {stops : List ℕ}
    (h : ∀ i ∈ stops, load i = load' i) : worth y load stops = worth y load' stops := by
  unfold worth
  congr 1
  exact List.map_congr_left fun i hi => by rw [h i hi]

omit [LinearOrder K] [FloorRing K] in
theorem worth_eq_sum {stops : List ℕ} (hnodup : stops.Nodup) (y : ℕ → K) (load : ℕ → ℕ) :
    worth y load stops = ∑ i ∈ stops.toFinset, (load i : K) * y i :=
  (List.sum_toFinset _ hnodup).symm

theorem reducedCost_firstServed {demands stops : List ℕ} {capacity : ℕ} (hnodup : stops.Nodup)
    (hstops : ∀ i ∈ stops, i < demands.length) (tourLength : K) (duals : List K) :
    (firstServed stops tourLength demands capacity).reducedCost duals =
      tourLength - worth (fun i => duals.getD i 0) (share demands capacity stops) stops := by
  rw [reducedCost_eq_sum_range, length_allocation_firstServed]
  congr 1
  simp only [servedAt_firstServed hnodup hstops]
  exact sum_range_eq_sum_map hnodup hstops fun i _ hi => by
    rw [share_of_notMem hi, Nat.cast_zero, zero_mul]

variable [IsStrictOrderedRing K] {demands : List ℕ} {y : ℕ → K}

/-- Passengers beyond the seats are worth no more than the first stop's each. -/
theorem worth_le_worth_share_add {stops : List ℕ} {seats excess : ℕ} {most : K} {load : ℕ → ℕ}
    (hmost : 0 ≤ most) (hhead : ∀ i ∈ stops, y i ≤ most) (hnonneg : ∀ i ∈ stops, 0 ≤ y i)
    (hfalling : stops.Pairwise fun i j => y j ≤ y i) (hnodup : stops.Nodup)
    (hload : ∀ i ∈ stops, load i ≤ demands.getD i 0)
    (hseats : (stops.map load).sum ≤ seats + excess) :
    worth y load stops ≤ worth y (share demands seats stops) stops + excess * most := by
  induction stops generalizing seats excess most with
  | nil => simpa [worth] using mul_nonneg (Nat.cast_nonneg excess) hmost
  | cons p rest ih =>
    obtain ⟨hp, hrest⟩ := List.nodup_cons.mp hnodup
    obtain ⟨hle, hfalling⟩ := List.pairwise_cons.mp hfalling
    have hload_p := hload p List.mem_cons_self
    have hy := hnonneg p List.mem_cons_self
    have hy_most := hhead p List.mem_cons_self
    simp only [List.map_cons, List.sum_cons] at hseats
    set w := min seats (demands.getD p 0) with hw
    -- what `p` is given beyond its load, the stops after it lose to the excess
    obtain ⟨rest_excess, hexcess⟩ : ∃ e, load p + e = w + excess := ⟨w + excess - load p, by omega⟩
    have hrec := ih hy hle
      (fun i hi => hnonneg i (List.mem_cons_of_mem p hi)) hfalling hrest
      (fun i hi => hload i (List.mem_cons_of_mem p hi))
      (show (rest.map load).sum ≤ (seats - w) + rest_excess by omega)
    have hshare : worth y (share demands seats (p :: rest)) rest =
        worth y (share demands (seats - w) rest) rest :=
      worth_congr fun i hi => share_cons_of_ne (fun h : i = p => hp (h ▸ hi)) rest
    rw [worth_cons, worth_cons, share_cons_self, ← hw, hshare]
    have hcast : (load p : K) + rest_excess = w + excess := by exact_mod_cast hexcess
    have hmul : (excess : K) * y p ≤ excess * most :=
      mul_le_mul_of_nonneg_left hy_most (Nat.cast_nonneg excess)
    calc (load p : K) * y p + worth y load rest
        ≤ (load p : K) * y p +
            (worth y (share demands (seats - w) rest) rest + rest_excess * y p) := by linarith
      _ = w * y p + worth y (share demands (seats - w) rest) rest + excess * y p := by
          linear_combination y p * hcast
      _ ≤ w * y p + worth y (share demands (seats - w) rest) rest + excess * most := by linarith

/-- Serving stops in the order of falling worth fills the seats with the passengers that are worth
most. -/
theorem worth_le_worth_share {stops : List ℕ} {seats : ℕ} {load : ℕ → ℕ}
    (hnonneg : ∀ i ∈ stops, 0 ≤ y i) (hfalling : stops.Pairwise fun i j => y j ≤ y i)
    (hnodup : stops.Nodup) (hload : ∀ i ∈ stops, load i ≤ demands.getD i 0)
    (hseats : (stops.map load).sum ≤ seats) :
    worth y load stops ≤ worth y (share demands seats stops) stops := by
  cases stops with
  | nil => exact le_refl _
  | cons p rest =>
    have hhead : ∀ i ∈ p :: rest, y i ≤ y p :=
      List.forall_mem_cons.mpr ⟨le_refl _, (List.pairwise_cons.mp hfalling).1⟩
    have h := worth_le_worth_share_add (hnonneg p List.mem_cons_self) hhead hnonneg
      hfalling hnodup hload (show ((p :: rest).map load).sum ≤ seats + 0 from hseats)
    simpa using h

end OffshoreFlights.Itinerary
