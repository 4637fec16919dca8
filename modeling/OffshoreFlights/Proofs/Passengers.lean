import Mathlib.Algebra.BigOperators.Group.Finset.Basic
import Mathlib.Algebra.GroupWithZero.Nat
import Mathlib.Algebra.Order.BigOperators.Group.List
import Mathlib.Algebra.Order.Group.Nat
import Mathlib.Data.List.GetD
import OffshoreFlights.Passengers
import OffshoreFlights.Proofs.Sums

/-! Sums of passengers. -/

namespace OffshoreFlights

theorem headcount_eq_sum (groups : List ℕ) : headcount groups = groups.sum := rfl

theorem headcount_eq_sum_range (groups : List ℕ) :
    headcount groups = ∑ i ∈ Finset.range groups.length, groups.getD i 0 := by
  rw [headcount_eq_sum, sum_range_getD groups 0 fun w => w, List.map_id']

theorem le_headcount_of_mem {groups : List ℕ} {w : ℕ} (h : w ∈ groups) : w ≤ headcount groups :=
  List.le_sum_of_mem h

theorem getD_le_headcount (groups : List ℕ) (i : ℕ) : groups.getD i 0 ≤ headcount groups := by
  by_cases h : i < groups.length
  · rw [List.getD_eq_getElem _ _ h]
    exact le_headcount_of_mem (List.getElem_mem h)
  · rw [List.getD_eq_default _ _ (by omega)]
    exact Nat.zero_le _

theorem headcount_set {groups : List ℕ} {i : ℕ} (hi : i < groups.length)
    (hzero : groups.getD i 0 = 0) (w : ℕ) :
    headcount (groups.set i w) = headcount groups + w := by
  induction groups generalizing i with
  | nil => simp at hi
  | cons v groups ih =>
    cases i with
    | zero =>
      obtain rfl : v = 0 := hzero
      simp only [List.set_cons_zero, headcount_cons]
      omega
    | succ i =>
      have := ih (i := i) (by simpa using hi) (by simpa using hzero)
      simp only [List.set_cons_succ, headcount_cons, this]
      omega

theorem exists_getD_pos {groups : List ℕ} {n : ℕ} (hlength : groups.length = n + 1)
    (hfirst : groups.getD 0 0 = 0) (h : 0 < headcount groups) :
    ∃ i < n, 0 < groups.getD (i + 1) 0 := by
  by_contra hnone
  push Not at hnone
  have hrest : ∑ i ∈ Finset.range n, groups.getD (i + 1) 0 = 0 :=
    Finset.sum_eq_zero fun i hi => Nat.le_zero.mp (hnone i (Finset.mem_range.mp hi))
  rw [headcount_eq_sum_range, hlength, Finset.sum_range_succ'] at h
  omega

end OffshoreFlights
