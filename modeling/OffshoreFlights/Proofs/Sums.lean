import Mathlib.Algebra.BigOperators.Group.Finset.Basic
import Mathlib.Data.List.GetD

/-! Sums over a list of indices and over its places, and sums over all indices below a bound. -/

namespace OffshoreFlights

variable {M : Type} [AddCommMonoid M]

theorem sum_range_getD {β : Type} (xs : List β) (d : β) (f : β → M) :
    ∑ k ∈ Finset.range xs.length, f (xs.getD k d) = (xs.map f).sum := by
  induction xs with
  | nil => rfl
  | cons x xs ih =>
    rw [List.length_cons, Finset.sum_range_succ', List.map_cons, List.sum_cons, add_comm]
    exact congrArg (f x + ·) ih

variable {indices : List ℕ} {n : ℕ} {f : ℕ → M}

/-- What is nothing outside a list of indices is summed over the list. -/
theorem sum_range_eq_sum_map (hnodup : indices.Nodup) (hlt : ∀ i ∈ indices, i < n)
    (hzero : ∀ i < n, i ∉ indices → f i = 0) :
    ∑ i ∈ Finset.range n, f i = (indices.map f).sum := by
  rw [← List.sum_toFinset f hnodup]
  symm
  refine Finset.sum_subset (fun i hi => ?_) fun i hi hout => ?_
  · exact Finset.mem_range.mpr (hlt i (List.mem_toFinset.mp hi))
  · exact hzero i (Finset.mem_range.mp hi) fun h => hout (List.mem_toFinset.mpr h)

/-- What is nothing outside a list of indices is summed over the places of the list. -/
theorem sum_range_eq_sum_places (hnodup : indices.Nodup) (hlt : ∀ i ∈ indices, i < n)
    (hzero : ∀ i < n, i ∉ indices → f i = 0) :
    ∑ i ∈ Finset.range n, f i = ∑ k ∈ Finset.range indices.length, f (indices.getD k 0) := by
  rw [sum_range_eq_sum_map hnodup hlt hzero, sum_range_getD]

end OffshoreFlights
