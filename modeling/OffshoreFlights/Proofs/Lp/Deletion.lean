import Mathlib.Data.List.Destutter
import OffshoreFlights.Lp.Backend

/-! Deletion by index. The elements can also be taken out in place, one at a time: from the greatest
index to the least, and no index twice, so that none of those still to come has moved. -/

namespace OffshoreFlights.Lp

variable {β : Type} {indices : List ℕ}

/-- The indices below a bound that are not among the given ones, in order. -/
def remaining (indices : List ℕ) (n : ℕ) : List ℕ := (List.range n).filter (· ∉ indices)

/-- `eraseIndices` for elements of which the first has an index other than zero. -/
def eraseFrom (start : ℕ) (indices : List ℕ) (xs : List β) : List β :=
  ((xs.zipIdx start).filter fun place => !indices.contains place.2).map Prod.fst

theorem eraseIndices_eq_eraseFrom (indices : List ℕ) (xs : List β) :
    eraseIndices indices xs = eraseFrom 0 indices xs := rfl

/-- What is left are the elements at the remaining indices. -/
theorem eraseIndices_eq (indices : List ℕ) (xs : List β) :
    eraseIndices indices xs = (remaining indices xs.length).filterMap (xs[·]?) := by
  have hremaining : remaining indices xs.length =
      (xs.zipIdx.filter fun place => !indices.contains place.2).map Prod.snd := by
    rw [remaining, List.range_eq_range', ← List.zipIdx_map_snd, List.filter_map]
    simp [Function.comp_def]
  rw [hremaining, eraseIndices_eq_eraseFrom, eraseFrom, List.filterMap_map,
    ← List.filterMap_eq_map]
  refine List.filterMap_congr fun place hplace => ?_
  exact (List.mk_mem_zipIdx_iff_getElem?.mp (List.mem_of_mem_filter hplace)).symm

theorem eraseIndices_congr {indices' : List ℕ} (h : ∀ j, j ∈ indices ↔ j ∈ indices')
    (xs : List β) : eraseIndices indices xs = eraseIndices indices' xs := by
  simp only [eraseIndices, List.contains_eq_mem, h]

theorem map_eraseIndices {γ : Type} (f : β → γ) (indices : List ℕ) (xs : List β) :
    (eraseIndices indices xs).map f = eraseIndices indices (xs.map f) := by
  unfold eraseIndices
  rw [List.zipIdx_map, List.filter_map, List.map_map, List.map_map]
  rfl

theorem eraseFrom_sublist (start : ℕ) (indices : List ℕ) (xs : List β) :
    (eraseFrom start indices xs).Sublist xs := by
  have hsublist : (eraseFrom start indices xs).Sublist ((xs.zipIdx start).map Prod.fst) :=
    List.filter_sublist.map Prod.fst
  rwa [List.zipIdx_map_fst] at hsublist

theorem eraseIndices_append (indices : List ℕ) (xs ys : List β) :
    eraseIndices indices (xs ++ ys) =
      eraseIndices indices xs ++ eraseFrom (0 + xs.length) indices ys := by
  rw [eraseIndices, List.zipIdx_append, List.filter_append, List.map_append]
  rfl

/-! ### One at a time -/

theorem eraseFrom_eq_self {start : ℕ} (h : ∀ j ∈ indices, j < start) (xs : List β) :
    eraseFrom start indices xs = xs := by
  rw [eraseFrom, List.filter_eq_self.mpr, List.zipIdx_map_fst]
  intro place hplace
  have hstart := List.le_snd_of_mem_zipIdx hplace
  rw [Bool.not_eq_true', List.contains_eq_mem, decide_eq_false_iff_not]
  exact fun hmem => absurd (h _ hmem) (not_lt.mpr hstart)

theorem eraseFrom_cons_of_mem {start : ℕ} (h : start ∈ indices) (x : β) (xs : List β) :
    eraseFrom start indices (x :: xs) = eraseFrom (start + 1) indices xs := by
  simp [eraseFrom, h]

theorem eraseFrom_cons_of_notMem {start : ℕ} (h : start ∉ indices) (x : β) (xs : List β) :
    eraseFrom start indices (x :: xs) = x :: eraseFrom (start + 1) indices xs := by
  simp [eraseFrom, h]

theorem eraseFrom_cons_index {start d : ℕ} (hstart : start ≤ d) (h : ∀ j ∈ indices, j < d)
    (xs : List β) :
    eraseFrom start (d :: indices) xs = eraseFrom start indices (xs.eraseIdx (d - start)) := by
  induction xs generalizing start with
  | nil => rfl
  | cons x xs ih =>
    rcases hstart.eq_or_lt with rfl | hlt
    · -- the element at `d` goes, and all behind it stay
      have hbehind : ∀ j ∈ start :: indices, j < start + 1 :=
        List.forall_mem_cons.mpr ⟨Nat.lt_succ_self start, fun j hj => Nat.lt_succ_of_lt (h j hj)⟩
      rw [eraseFrom_cons_of_mem List.mem_cons_self, eraseFrom_eq_self hbehind, Nat.sub_self,
        List.eraseIdx_cons_zero, eraseFrom_eq_self h]
    · obtain ⟨k, rfl⟩ : ∃ k, d = start + (k + 1) := ⟨d - start - 1, by omega⟩
      have hrest := @ih (start + 1) (by omega)
      rw [show start + (k + 1) - (start + 1) = k by omega] at hrest
      rw [Nat.add_sub_cancel_left, List.eraseIdx_cons_succ]
      by_cases hmem : start ∈ indices
      · rw [eraseFrom_cons_of_mem (List.mem_cons_of_mem _ hmem), eraseFrom_cons_of_mem hmem, hrest]
      · rw [eraseFrom_cons_of_notMem (by simpa using hmem), eraseFrom_cons_of_notMem hmem, hrest]

theorem foldl_eraseIdx (h : indices.Pairwise (· > ·)) (xs : List β) :
    indices.foldl List.eraseIdx xs = eraseIndices indices xs := by
  induction indices generalizing xs with
  | nil => exact (eraseFrom_eq_self (by simp) xs).symm
  | cons d indices ih =>
    obtain ⟨hd, hrest⟩ := List.pairwise_cons.mp h
    -- the greatest index can be taken out first
    rw [List.foldl_cons, ih hrest]
    exact (eraseFrom_cons_index (Nat.zero_le d) hd xs).symm

/-- The given indices from the greatest to the least, each of them once. -/
def falling (indices : List ℕ) : List ℕ :=
  (indices.mergeSort fun a b => decide (b ≤ a)).destutter (· ≠ ·)

theorem mem_destutter' {a b : ℕ} {rest : List ℕ} :
    a ∈ rest.destutter' (· ≠ ·) b ↔ a ∈ b :: rest := by
  induction rest generalizing b with
  | nil => simp
  | cons c rest ih =>
    rw [List.destutter'_cons]
    split
    next => rw [List.mem_cons, ih, ← List.mem_cons]
    next heq =>
      obtain rfl : b = c := not_not.mp heq
      rw [ih]
      simp

theorem mem_falling {j : ℕ} : j ∈ falling indices ↔ j ∈ indices := by
  have hdestutter : ∀ sorted : List ℕ, j ∈ sorted.destutter (· ≠ ·) ↔ j ∈ sorted := by
    rintro (_ | ⟨b, rest⟩)
    · rfl
    · exact mem_destutter'
  rw [falling, hdestutter, List.mem_mergeSort]

theorem pairwise_falling (indices : List ℕ) : (falling indices).Pairwise (· > ·) := by
  have hsorted : (indices.mergeSort fun a b => decide (b ≤ a)).Pairwise (· ≥ ·) :=
    (List.pairwise_mergeSort (fun a b c => by simpa using fun h h' => h'.trans h)
      (fun a b => by simpa using le_total b a) indices).imp of_decide_eq_true
  have hfalling : (falling indices).Pairwise (· ≥ ·) := hsorted.sublist (List.destutter_sublist _ _)
  have hchain : (falling indices).IsChain (· ≠ ·) := List.isChain_destutter _ _
  rw [← List.isChain_iff_pairwise, List.isChain_iff_getElem] at *
  exact fun i hi => lt_of_le_of_ne (hfalling i hi) (hchain i hi).symm

/-- Taken out in turn, the greatest index first, the elements left are the same. -/
theorem foldl_eraseIdx_falling (indices : List ℕ) (xs : List β) :
    (falling indices).foldl List.eraseIdx xs = eraseIndices indices xs :=
  (foldl_eraseIdx (pairwise_falling indices) xs).trans
    (eraseIndices_congr (fun _ => mem_falling) xs)

end OffshoreFlights.Lp
