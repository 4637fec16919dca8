import Mathlib.Data.Rat.Floor
import OffshoreFlights.Number.Binary64
import OffshoreFlights.Problem
import OffshoreFlights.Proofs.DistanceTable
import OffshoreFlights.Proofs.Number.Lengths

/-! What a valid problem is known to satisfy, over any numbers and in exact arithmetic. -/

namespace OffshoreFlights

namespace Problem

section Rules

variable {α : Type} [Scalar α]

/-- The rules of a problem, one by one. -/
structure Valid (platforms : List (Platform α)) (distances : DistanceTable α) (capacity : ℕ)
    (range : α) : Prop where
  two_le : 2 ≤ platforms.length
  le_capacity : platforms.length ≤ LocationSet.capacity
  seats : 1 ≤ capacity
  finite_range : Scalar.isFinite range = true
  range_pos : ¬range ≤ 0
  size_eq : distances.size = platforms.length
  in_place : misplaced? platforms = none
  depot_demand : (platforms.head?.map Platform.demand).getD 0 = 0
  zero_diagonal : distances.zeroDiagonal = true
  symmetric : distances.symmetricWithin symmetryTolerance = true
  cells : badCell? distances = none

theorem flaw?_eq_none_iff {platforms : List (Platform α)} {distances : DistanceTable α}
    {capacity : ℕ} {range : α} :
    flaw? platforms distances capacity range = none ↔
      Valid platforms distances capacity range := by
  unfold flaw?
  constructor
  · intro h
    split at h
    · cases h
    split at h
    · cases h
    split at h
    · cases h
    split at h
    · cases h
    split at h
    · cases h
    split at h
    · cases h
    split at h
    · cases h
    split at h
    · cases h
    split at h
    · cases h
    next h1 h2 h3 h4 h5 _ h6 h7 h8 _ h9 =>
    simp only [not_or, Bool.not_eq_false, not_not] at h4 h5 h7 h8
    exact ⟨by omega, by omega, by omega, h4.1, h4.2, h5, h6, h7, h8.1, h8.2, h9⟩
  · intro h
    have h1 := h.two_le
    have h2 := h.le_capacity
    have h3 := h.seats
    rw [if_neg (by omega), if_neg (by omega), if_neg (by omega),
      if_neg (by simp [h.finite_range, h.range_pos]), if_neg (by simp [h.size_eq])]
    simp [h.in_place, h.depot_demand, h.zero_diagonal, h.symmetric, h.cells]

omit [Scalar α] in
theorem misplaced?_eq_none_iff {platforms : List (Platform α)} :
    misplaced? platforms = none ↔
      ∀ (i : ℕ) (p : Platform α), platforms[i]? = some p → p.id = i := by
  simp only [misplaced?, List.find?_eq_none, Prod.forall, List.mem_zipIdx_iff_getElem?, bne_iff_ne,
    not_not]
  exact forall_comm

theorem badCell?_eq_none_iff {distances : DistanceTable α} : badCell? distances = none ↔
    ∀ i < distances.size, ∀ j < distances.size,
      Scalar.isFinite (distances.distance i j) = true ∧ ¬distances.distance i j < 0 := by
  simp only [badCell?, List.findSome?_eq_none_iff, List.mem_range, ite_eq_right_iff, reduceCtorEq,
    imp_false, not_or, Bool.not_eq_false]

/-- A problem is made of the parts that it was asked of. -/
theorem of_ofDistances {platforms : List (Platform α)} {distances : DistanceTable α} {capacity : ℕ}
    {range : α} {p : Problem α} (h : ofDistances platforms distances capacity range = .ok p) :
    p.platforms = platforms ∧ p.distances = distances ∧ p.capacity = capacity ∧
      p.range = range := by
  unfold ofDistances at h
  split at h
  · cases h
  · obtain rfl := Except.ok.inj h
    exact ⟨rfl, rfl, rfl, rfl⟩

variable (p : Problem α)

theorem valid : Valid p.platforms p.distances p.capacity p.range := flaw?_eq_none_iff.mp p.sound

theorem platforms_length : p.platforms.length = p.platformCount + 1 := by
  have := p.valid.two_le
  unfold platformCount
  omega

theorem platformCount_lt_capacity : p.platformCount < LocationSet.capacity := by
  have := p.valid.le_capacity
  rw [p.platforms_length] at this
  omega

@[simp] theorem demands_length : p.demands.length = p.platformCount + 1 := by
  rw [demands, List.length_map, p.platforms_length]

theorem demands_depot : p.demands.getD 0 0 = 0 := by
  have := p.valid.depot_demand
  unfold demands
  cases h : p.platforms <;> simp_all

theorem cell_sound {i j : ℕ} (hi : i < p.distances.size) (hj : j < p.distances.size) :
    Scalar.isFinite (p.distances.distance i j) = true ∧ ¬p.distances.distance i j < 0 :=
  badCell?_eq_none_iff.mp p.valid.cells i hi j hj

/-- A distance is in the table, or is that to a location that is not. -/
theorem distance_cases (i j : ℕ) : p.distance i j = 0 ∨
    ∃ row < p.distances.size, ∃ column < p.distances.size,
      p.distance i j = p.distances.distance row column := by
  have hsize := p.distances.cells_size
  by_cases h : i * p.distances.size + j < p.distances.cells.size
  · have hpos : 0 < p.distances.size := by
      by_contra h0
      rw [Nat.eq_zero_of_not_pos h0] at hsize
      omega
    refine .inr ⟨(i * p.distances.size + j) / p.distances.size, Nat.div_lt_of_lt_mul (by omega),
      (i * p.distances.size + j) % p.distances.size, Nat.mod_lt _ hpos, ?_⟩
    rw [distance, DistanceTable.distance, DistanceTable.distance, Nat.div_add_mod']
  · refine .inl ?_
    rw [distance, DistanceTable.distance, Array.getD, dif_neg h]

open Scalar.Lengths in
theorem zero_le_distance [Scalar.Lengths α] (i j : ℕ) : 0 ≤ p.distance i j := by
  rcases p.distance_cases i j with h | ⟨row, hrow, column, hcolumn, h⟩ <;> rw [h]
  · exact zero_le_zero
  · obtain ⟨hfinite, hneg⟩ := p.cell_sound hrow hcolumn
    by_contra hn
    exact hneg (lt_of_not_le zero_le_zero (le_self_of_finite hfinite) hn)

/-- No leg home is shorter than the leg out, as when opposite distances are the same. -/
def SlowHome : Prop := ∀ i ≤ p.platformCount, p.distance 0 i ≤ p.distance i 0

end Rules

section Exact

variable {K : Type} [Field K] [LinearOrder K] [FloorRing K] (p : Problem K)

theorem range_pos : 0 < p.range := not_le.mp p.valid.range_pos

theorem distance_self {i : ℕ} (h : i ≤ p.platformCount) : p.distance i i = 0 := by
  have hsize := p.valid.size_eq
  rw [p.platforms_length] at hsize
  exact eq_of_beq (p.distances.zeroDiagonal_iff.mp p.valid.zero_diagonal i (by omega))

/-- Opposite distances between locations are the same. -/
def Symmetric : Prop :=
  ∀ i ≤ p.platformCount, ∀ j ≤ p.platformCount, p.distance i j = p.distance j i

theorem Symmetric.slowHome {p : Problem K} (h : p.Symmetric) : p.SlowHome :=
  fun i hi => (h 0 (Nat.zero_le _) i hi).le

/-- The way between two locations by a third is no shorter than the direct one. -/
def Triangular : Prop :=
  ∀ i ≤ p.platformCount, ∀ j ≤ p.platformCount, ∀ k ≤ p.platformCount,
    p.distance i k ≤ p.distance i j + p.distance j k

instance : Decidable p.Symmetric :=
  inferInstanceAs (Decidable (∀ i ≤ p.platformCount, ∀ j ≤ p.platformCount,
    p.distance i j = p.distance j i))

instance : Decidable p.Triangular :=
  inferInstanceAs (Decidable (∀ i ≤ p.platformCount, ∀ j ≤ p.platformCount,
    ∀ k ≤ p.platformCount, p.distance i k ≤ p.distance i j + p.distance j k))

end Exact

end Problem

/-- Two platforms, 10 and 15 units away from the depot and 8 units apart. -/
def DistanceTable.triangle : DistanceTable Float := ⟨3, #[0, 10, 15, 10, 0, 8, 15, 8, 0], rfl⟩

/-- Two and three passengers for the platforms of the triangle, and a helicopter with four seats. -/
def Problem.triangle : Problem Float where
  platforms := [.depot, ⟨1, 0, 0, 2⟩, ⟨2, 0, 0, 3⟩]
  distances := .triangle
  capacity := 4
  range := 100
  sound := by decide +kernel

end OffshoreFlights
