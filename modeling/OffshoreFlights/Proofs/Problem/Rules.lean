import OffshoreFlights.Proofs.DistanceTable
import OffshoreFlights.Proofs.Number.Differences
import OffshoreFlights.Proofs.Problem

/-! The rules of a problem, apart from the order in which they are checked. The checks read the list
of the locations and the table of their distances by index, and no index is out of range. They pass
the problems that keep to all rules and no others, whatever the numbers in the table are. -/

namespace OffshoreFlights.Problem

section Rules

variable {α : Type} [Scalar α]

/-- The parts of a problem keep to the rules. Distances are numbers, none is negative, and no two
opposite ones are further apart than the tolerance. -/
structure Lawful (platforms : List (Platform α)) (distances : DistanceTable α) (capacity : ℕ)
    (range : α) : Prop where
  two_locations : 2 ≤ platforms.length
  few_locations : platforms.length ≤ 64
  some_seat : 1 ≤ capacity
  finite_range : Scalar.isFinite range = true
  some_range : 0 < range
  square : distances.size = platforms.length
  in_order (i : ℕ) (p : Platform α) (h : platforms[i]? = some p) : p.id = i
  depot (p : Platform α) (h : platforms[0]? = some p) : p.demand = 0
  diagonal (i : ℕ) (hi : i < distances.size) : (distances.distance i i == 0) = true
  finite (i j : ℕ) (hi : i < distances.size) (hj : j < distances.size) :
    Scalar.isFinite (distances.distance i j) = true
  nonneg (i j : ℕ) (hi : i < distances.size) (hj : j < distances.size) :
    0 ≤ distances.distance i j
  close (i j : ℕ) (hi : i < distances.size) (hj : j < distances.size) :
    Scalar.magnitude (distances.distance i j - distances.distance j i) ≤ symmetryTolerance

/-- `flaw?` in place. Opposite distances are compared only where all locations are at distance zero
from themselves. -/
def flawInPlace? (platforms : List (Platform α)) (distances : DistanceTable α) (capacity : ℕ)
    (range : α) : Except Fault (Option (Error α)) :=
  if platforms.length < 2 then return some .noPlatforms
  else if LocationSet.capacity < platforms.length then
    return some (.tooManyPlatforms (platforms.length - 1) (LocationSet.capacity - 1))
  else if capacity = 0 then return some .noSeats
  else if Scalar.isFinite range = false ∨ range ≤ 0 then return some (.badRange range)
  else if distances.size ≠ platforms.length then
    return some (.sizeMismatch platforms.length distances.size)
  else match misplaced? platforms with
    | some (p, place) => return some (.badLayout (.misplaced place p.id))
    | none => do
      let depot ← elementAt platforms 0
      if depot.demand ≠ 0 then return some (.badLayout .depotDemand)
      else
        let zero ← distances.zeroDiagonalInPlace
        let symmetric ← if zero then distances.symmetricInPlace symmetryTolerance else pure false
        if symmetric = false then return some (.badLayout .notSymmetric)
        else match ← distances.badCellInPlace? with
          | some (i, j) =>
            return some (.badLayout (.badEntry i j (← distances.distanceChecked i j)))
          | none => return none

theorem badCellInPlace?_eq (distances : DistanceTable α) :
    distances.badCellInPlace? = .ok (badCell? distances) := by
  refine findSomeM?_of_ok fun i hi => findSomeM?_of_ok fun j hj => ?_
  rw [distances.distanceChecked_of_lt (List.mem_range.mp hi) (List.mem_range.mp hj)]
  rfl

theorem badCell?_some {distances : DistanceTable α} {i j : ℕ}
    (h : badCell? distances = some (i, j)) : i < distances.size ∧ j < distances.size := by
  obtain ⟨i', hi, hrow⟩ := List.exists_of_findSome?_eq_some h
  obtain ⟨j', hj, hcell⟩ := List.exists_of_findSome?_eq_some hrow
  dsimp only at hcell
  split at hcell
  · cases hcell
    exact ⟨List.mem_range.mp hi, List.mem_range.mp hj⟩
  · cases hcell

/-- A rule that is broken ends the checks, and the rest is asked only where it is kept. -/
theorem checked_eq {β : Type} {broken : Prop} [Decidable broken] {flaw rest : β}
    {restInPlace : Except Fault β} (h : ¬broken → restInPlace = .ok rest) :
    (if broken then pure flaw else restInPlace) = .ok (if broken then flaw else rest) := by
  by_cases hbroken : broken
  · rw [if_pos hbroken, if_pos hbroken]
    rfl
  · rw [if_neg hbroken, if_neg hbroken, h hbroken]

/-- The checks meet no fault. -/
theorem flawInPlace?_eq (platforms : List (Platform α)) (distances : DistanceTable α) (capacity : ℕ)
    (range : α) : flawInPlace? platforms distances capacity range =
      .ok (flaw? platforms distances capacity range) := by
  unfold flawInPlace? flaw?
  refine checked_eq fun hnone => checked_eq fun _ => checked_eq fun _ => checked_eq fun _ =>
    checked_eq fun _ => ?_
  cases misplaced? platforms with
  | some found => rfl
  | none =>
    obtain ⟨depot, rest, rfl⟩ := List.exists_cons_of_length_pos (by omega : 0 < platforms.length)
    have hfirst : elementAt (depot :: rest) 0 = .ok depot := rfl
    have hhead : ((depot :: rest).head?.map Platform.demand).getD 0 = depot.demand := rfl
    simp only [hfirst, hhead, bind, Except.bind]
    refine checked_eq fun _ => ?_
    rw [distances.zeroDiagonalInPlace_eq, distances.symmetricInPlace_eq, badCellInPlace?_eq]
    cases distances.zeroDiagonal with
    | false => rfl
    | true =>
      cases distances.symmetricWithin symmetryTolerance with
      | false => rfl
      | true =>
        cases hbad : badCell? distances with
        | none => rfl
        | some cell =>
          obtain ⟨hi, hj⟩ := badCell?_some hbad
          dsimp only
          rw [distances.distanceChecked_of_lt hi hj]
          rfl

/-- The problem with these parts, or the first rule that they break, in place. -/
def ofDistancesInPlace (platforms : List (Platform α)) (distances : DistanceTable α) (capacity : ℕ)
    (range : α) : Except Fault (Except (Error α) (Problem α)) :=
  match h : flawInPlace? platforms distances capacity range with
  | .error fault => .error fault
  | .ok (some e) => .ok (.error e)
  | .ok none => .ok (.ok ⟨platforms, distances, capacity, range,
      Except.ok.inj ((flawInPlace?_eq platforms distances capacity range).symm.trans h)⟩)

theorem ofDistancesInPlace_eq (platforms : List (Platform α)) (distances : DistanceTable α)
    (capacity : ℕ) (range : α) : ofDistancesInPlace platforms distances capacity range =
      .ok (ofDistances platforms distances capacity range) := by
  have heq := flawInPlace?_eq platforms distances capacity range
  unfold ofDistancesInPlace ofDistances
  split
  next h => cases heq.symm.trans h
  next e h =>
    have hflaw := Except.ok.inj (heq.symm.trans h)
    split
    next h' => rw [Option.some.inj (hflaw.symm.trans h')]
    next h' => cases hflaw.symm.trans h'
  next h =>
    have hflaw := Except.ok.inj (heq.symm.trans h)
    split
    next h' => cases hflaw.symm.trans h'
    next => rfl

theorem exists_ofDistances_iff {platforms : List (Platform α)} {distances : DistanceTable α}
    {capacity : ℕ} {range : α} : (∃ p, ofDistances platforms distances capacity range = .ok p) ↔
      Valid platforms distances capacity range := by
  rw [← flaw?_eq_none_iff]
  unfold ofDistances
  split
  next h => simp [h]
  next h => simp [h]

theorem ofDistances_eq_error_iff {platforms : List (Platform α)} {distances : DistanceTable α}
    {capacity : ℕ} {range : α} {e : Error α} :
    ofDistances platforms distances capacity range = .error e ↔
      flaw? platforms distances capacity range = some e := by
  unfold ofDistances
  split
  next h => simp [h]
  next h => simp [h]

end Rules

/-! ### Floats -/

theorem zero_le_symmetryTolerance : (0 : Float) ≤ symmetryTolerance := by decide +kernel

/-- Finite lengths that are not too far apart in one direction are not so in the other. -/
theorem close_of_not_lt {x y : Float} (hx : x.isFinite = true) (hx' : 0 ≤ x)
    (hy : y.isFinite = true) (hy' : 0 ≤ y)
    (h : ¬symmetryTolerance < Scalar.magnitude (x - y)) :
    Scalar.magnitude (x - y) ≤ symmetryTolerance ∧
      Scalar.magnitude (y - x) ≤ symmetryTolerance := by
  obtain ⟨a, hxy, hyx⟩ := Binary64.number?_magnitude_sub hx hx' hy hy'
  obtain ⟨t, ht⟩ := Binary64.exists_of_nonneg zero_le_symmetryTolerance
  have hle : a ≤ t := not_lt.mp fun hlt => h (Binary64.lt_iff.mpr ⟨t, ht, a, hxy, hlt⟩)
  exact ⟨Binary64.le_iff.mpr ⟨a, hxy, t, ht, hle⟩, Binary64.le_iff.mpr ⟨a, hyx, t, ht, hle⟩⟩

/-- No value is too far from itself, whether or not it is a number. -/
theorem not_lt_magnitude_sub_self (x : Float) :
    ¬symmetryTolerance < Scalar.magnitude (x - x) := by
  intro h
  obtain ⟨t, ht⟩ := Binary64.exists_of_nonneg zero_le_symmetryTolerance
  obtain ⟨t', ht', a, ha, hlt⟩ := Binary64.lt_iff.mp h
  obtain rfl : (t : ℤ) = t' := Option.some.inj (ht.symm.trans ht')
  rw [Binary64.number?_magnitude] at ha
  rcases Binary64.number?_sub_self x with hnone | hzero
  · rw [hnone] at ha
    cases ha
  · rw [hzero] at ha
    obtain rfl : 0 = a := Option.some.inj ha
    omega

/-- Straight-line distances pass the tests of the whole table, whatever the places are. -/
theorem zeroDiagonal_ofPlatforms (platforms : List (Platform Float)) :
    (DistanceTable.ofPlatforms platforms).zeroDiagonal = true := by
  refine (DistanceTable.zeroDiagonal_iff _).mpr fun i hi => ?_
  rw [DistanceTable.distance_ofPlatforms_self _ hi]
  exact Scalar.Lengths.beq_iff.mpr ⟨Scalar.Lengths.zero_le_zero, Scalar.Lengths.zero_le_zero⟩

theorem symmetricWithin_ofPlatforms (platforms : List (Platform Float)) :
    (DistanceTable.ofPlatforms platforms).symmetricWithin symmetryTolerance = true := by
  refine (DistanceTable.symmetricWithin_iff _).mpr fun i j hij hj => ?_
  rw [DistanceTable.distance_ofPlatforms_comm _ hj (hij.trans hj)]
  exact not_lt_magnitude_sub_self _

open Scalar.Lengths in
theorem valid_iff_lawful {platforms : List (Platform Float)} {distances : DistanceTable Float}
    {capacity : ℕ} {range : Float} : Valid platforms distances capacity range ↔
      Lawful platforms distances capacity range := by
  constructor
  · intro h
    have hcell := badCell?_eq_none_iff.mp h.cells
    have hfinite (i j : ℕ) (hi : i < distances.size) (hj : j < distances.size) :=
      (hcell i hi j hj).1
    have hnonneg (i j : ℕ) (hi : i < distances.size) (hj : j < distances.size) :
        0 ≤ distances.distance i j := by
      by_contra hn
      exact (hcell i hi j hj).2
        (lt_of_not_le zero_le_zero (le_self_of_finite (hfinite i j hi hj)) hn)
    refine ⟨h.two_le, h.le_capacity, h.seats, h.finite_range,
      lt_of_not_le (le_self_of_finite h.finite_range) zero_le_zero h.range_pos, h.size_eq,
      misplaced?_eq_none_iff.mp h.in_place, fun p hp => ?_,
      distances.zeroDiagonal_iff.mp h.zero_diagonal, hfinite, hnonneg, fun i j hi hj => ?_⟩
    · have hdepot := h.depot_demand
      rwa [List.head?_eq_getElem?, hp] at hdepot
    · have hclose (i j : ℕ) (hi : i < distances.size) (hj : j < distances.size) :=
        close_of_not_lt (hfinite i j hi hj) (hnonneg i j hi hj) (hfinite j i hj hi)
          (hnonneg j i hj hi)
      have habove := distances.symmetricWithin_iff.mp h.symmetric
      rcases Nat.lt_trichotomy i j with hij | rfl | hji
      · exact (hclose i j hi hj (habove i j hij hj)).1
      · exact (hclose i i hi hi (not_lt_magnitude_sub_self _)).1
      · exact (hclose j i hj hi (habove j i hji hi)).2
  · intro h
    have hcell (i : ℕ) (hi : i < distances.size) (j : ℕ) (hj : j < distances.size) :=
      And.intro (h.finite i j hi hj) fun hlt => not_le_of_lt hlt (h.nonneg i j hi hj)
    refine ⟨h.two_locations, h.few_locations, h.some_seat, h.finite_range,
      not_le_of_lt h.some_range, h.square, misplaced?_eq_none_iff.mpr h.in_order, ?_,
      distances.zeroDiagonal_iff.mpr h.diagonal,
      distances.symmetricWithin_iff.mpr fun i j hij hj hlt =>
        not_le_of_lt hlt (h.close i j (hij.trans hj) hj),
      badCell?_eq_none_iff.mpr hcell⟩
    rw [List.head?_eq_getElem?]
    cases hp : platforms[0]? with
    | none => rfl
    | some p => exact h.depot p hp

end OffshoreFlights.Problem
