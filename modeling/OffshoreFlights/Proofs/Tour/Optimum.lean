import Mathlib.Data.Finset.Lattice.Fold
import Mathlib.Data.Fintype.Basic
import Mathlib.Data.Fintype.List
import OffshoreFlights.Proofs.Exact
import OffshoreFlights.Tour.Length

/-! The shortest closed tour through a set of locations, and how its length behaves: with symmetric
distances a tour may be flown backwards, and under the triangle inequality no tour gets longer when
stops are left out. -/

namespace OffshoreFlights.Tour

section Ways

variable {K : Type} [Field K] {d : ℕ → ℕ → K}

/-- The length of the way from a place through `order`. -/
def outward (d : ℕ → ℕ → K) (place : ℕ) : (order : List ℕ) → K
  | [] => 0
  | p :: rest => d place p + outward d p rest

/-- The length of the way from a place through `order`, then home. -/
def homeward (d : ℕ → ℕ → K) (place : ℕ) : (order : List ℕ) → K
  | [] => d place 0
  | p :: rest => d place p + homeward d p rest

theorem outward_append (place : ℕ) (order rest : List ℕ) :
    outward d place (order ++ rest) =
      outward d place order + outward d (order.getLastD place) rest := by
  induction order generalizing place with
  | nil => simp [outward]
  | cons p order ih =>
    rw [List.cons_append, outward, outward, ih, List.getLastD_cons]
    ring

theorem homeward_eq_outward (place : ℕ) (order : List ℕ) :
    homeward d place order = outward d place (order ++ [0]) := by
  induction order generalizing place with
  | nil => simp [homeward, outward]
  | cons p order ih => rw [homeward, ih, List.cons_append, outward]

theorem outward_reverse (a b : ℕ) (order : List ℕ)
    (hd : ∀ i ∈ a :: b :: order, ∀ j ∈ a :: b :: order, d i j = d j i) :
    outward d a (order ++ [b]) = outward d b (order.reverse ++ [a]) := by
  induction order generalizing a with
  | nil => simpa [outward] using hd a (by simp) b (by simp)
  | cons p order ih =>
    have hp := ih p fun i hi j hj => hd i (by simp at hi ⊢; tauto) j (by simp at hj ⊢; tauto)
    rw [List.cons_append, outward, hp, List.reverse_cons,
      outward_append b (order.reverse ++ [p]) [a]]
    have hlast : (order.reverse ++ [p]).getLastD b = p := by simp
    rw [hlast, hd a (by simp) p (by simp), outward, outward]
    ring

theorem homeward_reverse {order : List ℕ}
    (hd : ∀ i ∈ 0 :: order, ∀ j ∈ 0 :: order, d i j = d j i) :
    homeward d 0 order.reverse = homeward d 0 order := by
  rw [homeward_eq_outward, homeward_eq_outward,
    outward_reverse 0 0 order fun i hi j hj => hd i (by simp at hi ⊢; tauto) j
      (by simp at hj ⊢; tauto)]

end Ways

section Comparisons

variable {K : Type} [Field K] [LinearOrder K] [IsStrictOrderedRing K] {d : ℕ → ℕ → K}

theorem homeward_nonneg (hd : ∀ i j, 0 ≤ d i j) (place : ℕ) (order : List ℕ) :
    0 ≤ homeward d place order := by
  induction order generalizing place with
  | nil => exact hd place 0
  | cons p rest ih => exact add_nonneg (hd place p) (ih p)

/-- The distances between the locations of a set obey the triangle inequality. -/
def TriangleOn (d : ℕ → ℕ → K) (S : Set ℕ) : Prop :=
  ∀ i ∈ S, ∀ j ∈ S, ∀ k ∈ S, d i k ≤ d i j + d j k

/-- One stop more makes no way home shorter. -/
theorem homeward_le_detour {S : Set ℕ} (hd : TriangleOn d S) (hdepot : 0 ∈ S) {place p : ℕ}
    (hplace : place ∈ S) (hp : p ∈ S) {order : List ℕ} (horder : ∀ i ∈ order, i ∈ S) :
    homeward d place order ≤ d place p + homeward d p order := by
  cases order with
  | nil => exact hd place hplace p hp 0 hdepot
  | cons q order =>
    have := hd place hplace p hp q (horder q List.mem_cons_self)
    simp only [homeward]
    linarith

theorem homeward_le_of_sublist {S : Set ℕ} (hd : TriangleOn d S) (hdepot : 0 ∈ S)
    {short long : List ℕ} (h : short.Sublist long) (hlong : ∀ i ∈ long, i ∈ S) {place : ℕ}
    (hplace : place ∈ S) : homeward d place short ≤ homeward d place long := by
  induction h generalizing place with
  | slnil => exact le_refl _
  | @cons short long p h ih =>
    have hp : p ∈ S := hlong p List.mem_cons_self
    have hrest : ∀ i ∈ long, i ∈ S := fun i hi => hlong i (List.mem_cons_of_mem p hi)
    calc homeward d place short
        ≤ d place p + homeward d p short :=
          homeward_le_detour hd hdepot hplace hp fun i hi => hrest i (h.subset hi)
      _ ≤ d place p + homeward d p long := by
          have := ih hrest hp
          linarith
  | @cons_cons short long p h ih =>
    have hp : p ∈ S := hlong p List.mem_cons_self
    have := ih (fun i hi => hlong i (List.mem_cons_of_mem p hi)) hp
    simp only [homeward]
    linarith

end Comparisons

section Optimum

variable {K : Type} [Field K] [LinearOrder K] [FloorRing K] {d : ℕ → ℕ → K}

theorem lengthFrom_eq (length : K) (place : ℕ) (order : List ℕ) :
    (lengthFrom (m := Id) d length place order).run = length + homeward d place order := by
  induction order generalizing length place with
  | nil => rfl
  | cons p rest ih => exact (ih (length + d place p) p).trans (add_assoc _ _ _)

theorem length_eq_homeward (order : List ℕ) :
    (length (m := Id) d order).run = homeward d 0 order :=
  (lengthFrom_eq 0 0 order).trans (zero_add _)

/-- The orders in which the locations of a set can be visited. -/
def orders (S : Finset ℕ) : Finset (List ℕ) := S.val.lists.toFinset

@[simp] theorem mem_orders {S : Finset ℕ} {order : List ℕ} :
    order ∈ orders S ↔ order.Nodup ∧ order.toFinset = S := by
  rw [orders, Multiset.mem_toFinset, Multiset.mem_lists_iff]
  constructor
  · intro h
    have hnodup : order.Nodup := by
      have := S.nodup
      rwa [h] at this
    refine ⟨hnodup, Finset.val_inj.mp ?_⟩
    rw [List.toFinset_val, hnodup.dedup, h]
    rfl
  · rintro ⟨hnodup, rfl⟩
    rw [List.toFinset_val, hnodup.dedup]
    rfl

theorem orders_nonempty (S : Finset ℕ) : (orders S).Nonempty :=
  ⟨S.toList, by simp [Finset.nodup_toList]⟩

/-- The length of the shortest closed tour from the depot through all locations of a set: the least
length over all orders in which they can be visited. -/
def optimum (d : ℕ → ℕ → K) (S : Finset ℕ) : K :=
  (orders S).inf' (orders_nonempty S) fun order => (length (m := Id) d order).run

theorem optimum_le {order : List ℕ} (h : order.Nodup) :
    optimum d order.toFinset ≤ homeward d 0 order := by
  rw [← length_eq_homeward]
  exact Finset.inf'_le _ (mem_orders.mpr ⟨h, rfl⟩)

theorem exists_order_of_optimum (d : ℕ → ℕ → K) (S : Finset ℕ) :
    ∃ order : List ℕ, order.Nodup ∧ order.toFinset = S ∧ optimum d S = homeward d 0 order := by
  obtain ⟨order, hmem, h⟩ := Finset.exists_mem_eq_inf' (orders_nonempty S)
    fun order => (length (m := Id) d order).run
  obtain ⟨hnodup, hset⟩ := mem_orders.mp hmem
  exact ⟨order, hnodup, hset, h.trans (length_eq_homeward order)⟩

theorem le_optimum_iff {S : Finset ℕ} {x : K} : x ≤ optimum d S ↔
    ∀ order : List ℕ, order.Nodup → order.toFinset = S → x ≤ homeward d 0 order := by
  simp only [optimum, Finset.le_inf'_iff, mem_orders, length_eq_homeward, and_imp]

theorem optimum_singleton (i : ℕ) : optimum d {i} = d 0 i + d i 0 := by
  refine le_antisymm ?_ (le_optimum_iff.mpr fun order hnodup hset => ?_)
  · simpa [homeward] using optimum_le (d := d) (List.nodup_singleton i)
  · have hlen : order.length = 1 := by
      rw [← List.toFinset_card_of_nodup hnodup, hset, Finset.card_singleton]
    obtain ⟨j, rfl⟩ := List.length_eq_one_iff.mp hlen
    obtain rfl : j = i := by simpa using hset
    exact le_refl _

theorem optimum_pair {i j : ℕ} (h : i ≠ j) :
    optimum d {i, j} = min (d 0 i + (d i j + d j 0)) (d 0 j + (d j i + d i 0)) := by
  apply le_antisymm
  · apply le_min
    · simpa [homeward] using optimum_le (d := d) (show [i, j].Nodup by simpa using h)
    · rw [Finset.pair_comm]
      simpa [homeward] using optimum_le (d := d) (show [j, i].Nodup by simpa using h.symm)
  · refine le_optimum_iff.mpr fun order hnodup hset => ?_
    have hperm : order.Perm [i, j] :=
      List.perm_of_nodup_nodup_toFinset_eq hnodup (by simpa using h) (by simpa using hset)
    rcases List.perm_pair.mp hperm with rfl | rfl
    · exact min_le_left _ _
    · exact min_le_right _ _

variable [IsStrictOrderedRing K]

theorem optimum_nonneg (hd : ∀ i j, 0 ≤ d i j) (S : Finset ℕ) : 0 ≤ optimum d S :=
  le_optimum_iff.mpr fun order _ _ => homeward_nonneg hd 0 order

theorem optimum_mono {S : Set ℕ} (hd : TriangleOn d S) (hdepot : 0 ∈ S) {A B : Finset ℕ}
    (hAB : A ⊆ B) (hB : ∀ i ∈ B, i ∈ S) : optimum d A ≤ optimum d B := by
  refine le_optimum_iff.mpr fun order hnodup hset => ?_
  have hfilter : (order.filter (· ∈ A)).toFinset = A := by
    ext i
    rw [List.mem_toFinset, List.mem_filter, decide_eq_true_eq]
    refine ⟨fun h => h.2, fun h => ⟨?_, h⟩⟩
    rw [← List.mem_toFinset, hset]
    exact hAB h
  calc optimum d A ≤ homeward d 0 (order.filter (· ∈ A)) := by
        conv_lhs => rw [← hfilter]
        exact optimum_le (hnodup.filter _)
    _ ≤ homeward d 0 order := by
        refine homeward_le_of_sublist hd hdepot List.filter_sublist (fun i hi => hB i ?_) hdepot
        rwa [← hset, List.mem_toFinset]

end Optimum

end OffshoreFlights.Tour
