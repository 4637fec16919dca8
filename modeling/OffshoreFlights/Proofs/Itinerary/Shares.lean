import OffshoreFlights.Itinerary
import OffshoreFlights.Proofs.Passengers

/-! How an itinerary that serves its stops in turn shares its seats among them. -/

namespace OffshoreFlights.Itinerary

/-- The number of passengers who wait at some stops. -/
def waitingAt (demands stops : List ℕ) : ℕ := headcount (stops.map fun i => demands.getD i 0)

@[simp] theorem waitingAt_nil (demands : List ℕ) : waitingAt demands [] = 0 := rfl

@[simp] theorem waitingAt_cons (demands : List ℕ) (p : ℕ) (rest : List ℕ) :
    waitingAt demands (p :: rest) = demands.getD p 0 + waitingAt demands rest := rfl

/-- The seats that a location gets when stops are served in turn. -/
def share (demands : List ℕ) : (seats : ℕ) → (stops : List ℕ) → (location : ℕ) → ℕ
  | _, [], _ => 0
  | seats, p :: rest, i =>
    if i = p then min seats (demands.getD p 0)
    else share demands (seats - min seats (demands.getD p 0)) rest i

variable {demands : List ℕ} {seats : ℕ} {stops : List ℕ}

theorem share_cons_self (p : ℕ) (rest : List ℕ) :
    share demands seats (p :: rest) p = min seats (demands.getD p 0) := if_pos rfl

theorem share_cons_of_ne {p i : ℕ} (h : i ≠ p) (rest : List ℕ) :
    share demands seats (p :: rest) i =
      share demands (seats - min seats (demands.getD p 0)) rest i := if_neg h

theorem share_of_notMem {i : ℕ} (h : i ∉ stops) : share demands seats stops i = 0 := by
  induction stops generalizing seats with
  | nil => rfl
  | cons p rest ih =>
    rw [share_cons_of_ne (List.ne_of_not_mem_cons h)]
    exact ih (List.not_mem_of_not_mem_cons h)

theorem share_le_demand (i : ℕ) : share demands seats stops i ≤ demands.getD i 0 := by
  induction stops generalizing seats with
  | nil => exact Nat.zero_le _
  | cons p rest ih =>
    unfold share
    split
    next h =>
      subst h
      exact Nat.min_le_right _ _
    next => exact ih

/-- When everybody waits somewhere and the seats outlast every beginning of the stops, all stops are
served. -/
theorem share_pos (hwaiting : ∀ i ∈ stops, 0 < demands.getD i 0)
    (hroom : ∀ begun rest, begun ++ rest = stops → rest ≠ [] → waitingAt demands begun < seats)
    {i : ℕ} (hi : i ∈ stops) : 0 < share demands seats stops i := by
  induction stops generalizing seats with
  | nil => cases hi
  | cons p rest ih =>
    have hseats : 0 < seats := hroom [] (p :: rest) rfl (by simp)
    have hp := hwaiting p List.mem_cons_self
    by_cases hip : i = p
    · subst hip
      rw [share_cons_self]
      omega
    · rw [share_cons_of_ne hip]
      have hi : i ∈ rest := (List.mem_cons.mp hi).resolve_left hip
      refine ih (fun j hj => hwaiting j (List.mem_cons_of_mem p hj))
        (fun begun later h hne => ?_) hi
      have := hroom (p :: begun) later (by rw [List.cons_append, h]) hne
      rw [waitingAt_cons] at this
      omega

/-- Where the seats are enough for a beginning of the stops, everybody who waits there is served. -/
theorem share_append_of_room {rest : List ℕ} (hroom : waitingAt demands stops ≤ seats) {i : ℕ}
    (hi : i ∈ stops) : share demands seats (stops ++ rest) i = demands.getD i 0 := by
  induction stops generalizing seats with
  | nil => cases hi
  | cons p stops ih =>
    rw [waitingAt_cons] at hroom
    rw [List.cons_append]
    by_cases hip : i = p
    · subst hip
      rw [share_cons_self]
      omega
    · rw [share_cons_of_ne hip]
      apply ih
      · omega
      · exact (List.mem_cons.mp hi).resolve_left hip

theorem share_append_of_full {rest : List ℕ} (hfull : seats ≤ waitingAt demands stops) (i : ℕ) :
    share demands seats (stops ++ rest) i = share demands seats stops i := by
  induction stops generalizing seats with
  | nil =>
    obtain rfl : seats = 0 := by simpa using hfull
    induction rest with
    | nil => rfl
    | cons p rest ih =>
      rw [List.nil_append] at ih ⊢
      unfold share
      split
      · exact Nat.zero_min _
      · rw [Nat.zero_sub]
        exact ih
  | cons p stops ih =>
    rw [waitingAt_cons] at hfull
    rw [List.cons_append]
    unfold share
    split
    · rfl
    · exact ih (by omega)

/-! ### The allocation -/

variable {allocation : List ℕ}

@[simp] theorem length_fill (demands : List ℕ) (seats : ℕ) (stops allocation : List ℕ) :
    (fill demands seats stops allocation).length = allocation.length := by
  induction stops generalizing seats allocation with
  | nil => rfl
  | cons p rest ih => rw [fill, ih, List.length_set]

theorem getD_set_ne {p i : ℕ} (h : p ≠ i) (w : ℕ) :
    (allocation.set p w).getD i 0 = allocation.getD i 0 := by
  rw [List.getD_eq_getElem?_getD, List.getElem?_set_ne h, ← List.getD_eq_getElem?_getD]

theorem getD_fill (hnodup : stops.Nodup) (hstops : ∀ i ∈ stops, i < allocation.length) (i : ℕ) :
    (fill demands seats stops allocation).getD i 0 =
      if i ∈ stops then share demands seats stops i else allocation.getD i 0 := by
  induction stops generalizing seats allocation with
  | nil => rfl
  | cons p rest ih =>
    obtain ⟨hp, hrest⟩ := List.nodup_cons.mp hnodup
    have hlength : p < allocation.length := hstops p List.mem_cons_self
    rw [fill, ih hrest fun j hj => by
      rw [List.length_set]
      exact hstops j (List.mem_cons_of_mem p hj)]
    by_cases hip : i = p
    · subst hip
      rw [if_neg hp, if_pos List.mem_cons_self, share_cons_self,
        List.getD_eq_getElem _ _ (by simpa using hlength), List.getElem_set_self]
    · rw [share_cons_of_ne hip, getD_set_ne (Ne.symm hip)]
      simp only [List.mem_cons, hip, false_or]

theorem headcount_fill (hnodup : stops.Nodup) (hstops : ∀ i ∈ stops, i < allocation.length)
    (hzero : ∀ i ∈ stops, allocation.getD i 0 = 0) :
    headcount (fill demands seats stops allocation) =
      headcount allocation + min seats (waitingAt demands stops) := by
  induction stops generalizing seats allocation with
  | nil => simp [fill]
  | cons p rest ih =>
    obtain ⟨hp, hrest⟩ := List.nodup_cons.mp hnodup
    rw [fill, ih hrest]
    · rw [headcount_set (hstops p List.mem_cons_self) (hzero p List.mem_cons_self), waitingAt_cons]
      omega
    · intro i hi
      rw [List.length_set]
      exact hstops i (List.mem_cons_of_mem p hi)
    · intro i hi
      rw [getD_set_ne fun h : p = i => hp (h ▸ hi)]
      exact hzero i (List.mem_cons_of_mem p hi)

section FirstServed

variable {α : Type} {tourLength : α} {capacity : ℕ}

@[simp] theorem length_allocation_firstServed :
    (firstServed stops tourLength demands capacity).allocation.length = demands.length := by
  simp [firstServed]

theorem servedAt_firstServed (hnodup : stops.Nodup) (hstops : ∀ i ∈ stops, i < demands.length)
    (i : ℕ) : (firstServed stops tourLength demands capacity).servedAt i =
      share demands capacity stops i := by
  rw [servedAt, firstServed, getD_fill hnodup (by simpa using hstops)]
  split
  next => rfl
  next h =>
    rw [share_of_notMem h]
    by_cases hi : i < demands.length
    · rw [List.getD_replicate _ hi]
    · rw [List.getD_eq_default _ _ (by simpa using hi)]

theorem passengerCount_firstServed (hnodup : stops.Nodup)
    (hstops : ∀ i ∈ stops, i < demands.length) :
    (firstServed stops tourLength demands capacity).passengerCount =
      min capacity (waitingAt demands stops) := by
  rw [passengerCount, firstServed, headcount_fill hnodup (by simpa using hstops)]
  · simp [headcount_eq_sum]
  · intro i hi
    rw [List.getD_replicate _ (hstops i hi)]

end FirstServed

end OffshoreFlights.Itinerary
