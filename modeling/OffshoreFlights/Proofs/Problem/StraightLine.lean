import Mathlib.Algebra.Order.Archimedean.Real.Basic
import Mathlib.Analysis.Real.Sqrt
import OffshoreFlights.Proofs.DistanceTable
import OffshoreFlights.Proofs.Problem

/-! Straight-line distances with a square root that does not round. Wherever the locations are, such
distances are symmetric and no detour is a short cut. Distances that are given as a table need not
be so: the rules of a problem ask for symmetry up to a tolerance, and for nothing of detours. -/

namespace OffshoreFlights

/-- A square root that does not round. -/
class ExactRoot (K : Type) [Field K] [LinearOrder K] extends SquareRoot K where
  sqrt_nonneg : ∀ x, 0 ≤ sqrt x
  sqrt_mul_self : ∀ x, 0 ≤ x → sqrt x * sqrt x = x

noncomputable instance : ExactRoot ℝ where
  sqrt := Real.sqrt
  sqrt_nonneg := Real.sqrt_nonneg
  sqrt_mul_self _ := Real.mul_self_sqrt

variable {K : Type} [Field K] [LinearOrder K] [FloorRing K]

section Straight

variable [ExactRoot K]

namespace Platform

variable (p q r : Platform K)

theorem distance_nonneg : 0 ≤ p.distance q := ExactRoot.sqrt_nonneg _

variable [IsStrictOrderedRing K]

theorem distance_mul_self : p.distance q * p.distance q =
    (p.x - q.x) * (p.x - q.x) + (p.y - q.y) * (p.y - q.y) :=
  ExactRoot.sqrt_mul_self _ (add_nonneg (mul_self_nonneg _) (mul_self_nonneg _))

theorem distance_self : p.distance p = 0 := by
  apply mul_self_eq_zero.mp
  rw [distance_mul_self]
  ring

theorem distance_comm : p.distance q = q.distance p := by
  apply (mul_self_inj (p.distance_nonneg q) (q.distance_nonneg p)).mp
  rw [distance_mul_self, distance_mul_self]
  ring

/-- The inner product of two ways is at most the product of their lengths. -/
theorem inner_le : (p.x - q.x) * (q.x - r.x) + (p.y - q.y) * (q.y - r.y) ≤
    p.distance q * q.distance r := by
  apply abs_le_of_sq_le_sq' _ (mul_nonneg (p.distance_nonneg q) (q.distance_nonneg r)) |>.2
  have houter := mul_self_nonneg ((p.x - q.x) * (q.y - r.y) - (p.y - q.y) * (q.x - r.x))
  calc _ ≤ ((p.x - q.x) * (p.x - q.x) + (p.y - q.y) * (p.y - q.y)) *
        ((q.x - r.x) * (q.x - r.x) + (q.y - r.y) * (q.y - r.y)) := by linarith
    _ = (p.distance q * q.distance r) ^ 2 := by
      rw [← distance_mul_self, ← distance_mul_self]
      ring

theorem distance_triangle : p.distance r ≤ p.distance q + q.distance r := by
  apply abs_le_of_sq_le_sq' _ (add_nonneg (p.distance_nonneg q) (q.distance_nonneg r)) |>.2
  have hpq := p.distance_mul_self q
  have hqr := q.distance_mul_self r
  have hpr := p.distance_mul_self r
  have hinner := inner_le p q r
  linarith

end Platform

variable [IsStrictOrderedRing K]

theorem DistanceTable.distance_ofPlatforms (platforms : List (Platform K)) {i j : ℕ}
    (hi : i < platforms.length) (hj : j < platforms.length) :
    (ofPlatforms platforms).distance i j =
      (platforms.getD i .depot).distance (platforms.getD j .depot) := by
  rw [distance_ofPlatforms_of_lt platforms hi hj]
  rcases Nat.lt_trichotomy i j with h | rfl | h
  · rw [if_pos h]
  · rw [if_neg (lt_irrefl i), if_neg (lt_irrefl i), Platform.distance_self]
  · rw [if_neg (by omega), if_pos h, Platform.distance_comm]

namespace Problem

variable {p : Problem K} {platforms : List (Platform K)} {capacity : ℕ} {range : K}

theorem distance_of_ofPlatforms (h : ofPlatforms platforms capacity range = .ok p) {i j : ℕ}
    (hi : i ≤ p.platformCount) (hj : j ≤ p.platformCount) :
    p.distance i j = (platforms.getD i .depot).distance (platforms.getD j .depot) := by
  obtain ⟨hplatforms, hdistances, -, -⟩ := of_ofDistances h
  have hlength := p.platforms_length
  rw [hplatforms] at hlength
  rw [distance, hdistances]
  exact DistanceTable.distance_ofPlatforms platforms (by omega) (by omega)

theorem symmetric_of_ofPlatforms (h : ofPlatforms platforms capacity range = .ok p) :
    p.Symmetric := by
  intro i hi j hj
  rw [distance_of_ofPlatforms h hi hj, distance_of_ofPlatforms h hj hi]
  exact Platform.distance_comm _ _

theorem triangular_of_ofPlatforms (h : ofPlatforms platforms capacity range = .ok p) :
    p.Triangular := by
  intro i hi j hj k hk
  rw [distance_of_ofPlatforms h hi hj, distance_of_ofPlatforms h hj hk,
    distance_of_ofPlatforms h hi hk]
  exact Platform.distance_triangle _ _ _

end Problem

end Straight

namespace Problem

/-- Problems in which no detour is a short cut: those with straight-line distances, and those with
given distances that are symmetric and obey the triangle inequality. -/
inductive Metric (p : Problem K) : Prop
  | straight [ExactRoot K] {platforms : List (Platform K)} {capacity : ℕ} {range : K}
    (h : ofPlatforms platforms capacity range = .ok p)
  | given (hsymm : p.Symmetric) (htriangle : p.Triangular)

variable {p : Problem K} [IsStrictOrderedRing K]

theorem Metric.symmetric (h : p.Metric) : p.Symmetric := by
  cases h with
  | straight h => exact symmetric_of_ofPlatforms h
  | given hsymm _ => exact hsymm

theorem Metric.triangular (h : p.Metric) : p.Triangular := by
  cases h with
  | straight h => exact triangular_of_ofPlatforms h
  | given _ htriangle => exact htriangle

end Problem

end OffshoreFlights
