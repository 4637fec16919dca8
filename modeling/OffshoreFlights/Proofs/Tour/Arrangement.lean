import Mathlib.Data.List.Lex
import Mathlib.Data.List.Sort
import Mathlib.Data.List.Permutation
import Mathlib.Data.Nat.Factorial.Basic
import Mathlib.Data.Finset.Card
import Mathlib.Data.List.TakeWhile
import OffshoreFlights.Tour.Arrangement

/-! Arrangements in lexicographic order. `next?` leads to the least arrangement that is greater, and
fails on the last one only. `lastAgreeing` is the last arrangement with a given beginning, so a step
from there passes over the arrangements that begin in the same way and over no others. -/

namespace OffshoreFlights.Arrangement

theorem cons_le_cons_iff {x y : ℕ} {s t : List ℕ} : x :: s ≤ y :: t ↔ x < y ∨ x = y ∧ s ≤ t := by
  rw [← not_lt, List.cons_lt_cons_iff, ← not_lt]
  constructor
  · intro h
    rcases lt_trichotomy x y with hxy | rfl | hxy
    · exact .inl hxy
    · exact .inr ⟨rfl, fun hts => h (.inr ⟨rfl, hts⟩)⟩
    · exact absurd (.inl hxy) h
  · rintro (hxy | ⟨rfl, hst⟩) (hyx | ⟨hyx, hts⟩)
    · omega
    · omega
    · omega
    · exact hst hts

theorem le_append_of_le {s t : List ℕ} (p : List ℕ) (h : s ≤ t) : p ++ s ≤ p ++ t := by
  induction p with
  | nil => exact h
  | cons x p ih => exact cons_le_cons_iff.mpr (.inr ⟨rfl, ih⟩)

/-- Two different arrangements are the same up to a place where the second one has an element that
the first one has later. -/
theorem eq_or_parts {s t : List ℕ} (h : t.Perm s) :
    t = s ∨ ∃ begun x y s' t', s = begun ++ x :: s' ∧ t = begun ++ y :: t' ∧ x ≠ y ∧ y ∈ s' := by
  induction s generalizing t with
  | nil => exact .inl (List.perm_nil.mp h)
  | cons x s ih =>
    match t, h with
    | [], h => exact absurd h.symm.eq_nil (by simp)
    | y :: t, h =>
      by_cases hxy : x = y
      · subst hxy
        obtain rfl | ⟨begun, x', y', s', t', rfl, rfl, hne, hy⟩ := ih h.cons_inv
        · exact .inl rfl
        · exact .inr ⟨x :: begun, x', y', s', t', rfl, rfl, hne, hy⟩
      · have hy : y ∈ s := by
          simpa [Ne.symm hxy] using h.mem_iff.mp List.mem_cons_self
        exact .inr ⟨[], x, y, s, t, rfl, rfl, hxy, hy⟩

/-- No arrangement comes before the ascending one. -/
theorem le_of_ascending {s t : List ℕ} (hs : s.Pairwise (· ≤ ·)) (h : t.Perm s) : s ≤ t := by
  obtain rfl | ⟨begun, x, y, s', t', rfl, rfl, hne, hy⟩ := eq_or_parts h
  · exact le_refl _
  · have hxy := List.rel_of_pairwise_cons (List.pairwise_append.mp hs).2.1 hy
    exact le_append_of_le begun (cons_le_cons_iff.mpr (.inl (lt_of_le_of_ne hxy hne)))

/-- No arrangement comes after the descending one. -/
theorem le_of_descending {s t : List ℕ} (hs : s.Pairwise (· ≥ ·)) (h : t.Perm s) : t ≤ s := by
  obtain rfl | ⟨begun, x, y, s', t', rfl, rfl, hne, hy⟩ := eq_or_parts h
  · exact le_refl _
  · have hyx := List.rel_of_pairwise_cons (List.pairwise_append.mp hs).2.1 hy
    exact le_append_of_le begun (cons_le_cons_iff.mpr (.inl (lt_of_le_of_ne hyx hne.symm)))

/-! ### The step to the next arrangement -/

/-- What `bump?` puts in front is the least element that is greater, and what follows ascends. -/
theorem bump?_some {x : ℕ} {rising t : List ℕ} (hrising : rising.Pairwise (· ≤ ·))
    (h : bump? x rising = some t) :
    ∃ y rest, t = y :: rest ∧ x < y ∧ (∀ z ∈ rising, x < z → y ≤ z) ∧ rest.Pairwise (· ≤ ·) ∧
      t.Perm (x :: rising) := by
  have hsplit : rising.takeWhile (· ≤ x) ++ rising.dropWhile (· ≤ x) = rising :=
    List.takeWhile_append_dropWhile
  have hlow : ∀ z ∈ rising.takeWhile (· ≤ x), z ≤ x := fun z hz => by
    simpa using List.mem_takeWhile_imp hz
  unfold bump? at h
  split at h
  · simp at h
  next y greater hdrop =>
  obtain rfl : y :: (rising.takeWhile (· ≤ x) ++ x :: greater) = t := by simpa using h
  rw [hdrop] at hsplit
  have hy : x < y := by
    have hhead := List.head_dropWhile_not (fun z => decide (z ≤ x)) (l := rising) (by simp [hdrop])
    simp only [hdrop, List.head_cons, decide_eq_false_iff_not] at hhead
    omega
  rw [← hsplit] at hrising
  obtain ⟨hleft, hright, hcross⟩ := List.pairwise_append.mp hrising
  obtain ⟨hgreater, hright⟩ := List.pairwise_cons.mp hright
  refine ⟨y, _, rfl, hy, fun z hz hxz => ?_, ?_, ?_⟩
  · rw [← hsplit] at hz
    rcases List.mem_append.mp hz with hz | hz
    · have := hlow z hz
      omega
    · rcases List.mem_cons.mp hz with rfl | hz
      · exact le_refl _
      · exact hgreater z hz
  · refine List.pairwise_append.mpr ⟨hleft, List.pairwise_cons.mpr ⟨?_, hright⟩, ?_⟩
    · intro z hz
      have := hgreater z hz
      omega
    · intro a ha b hb
      rcases List.mem_cons.mp hb with rfl | hb
      · exact hlow a ha
      · exact hcross a ha b (List.mem_cons_of_mem y hb)
  · conv_rhs => rw [← hsplit]
    exact (List.perm_middle.cons y).trans
      ((List.Perm.swap x y _).trans (List.perm_middle.symm.cons x))

theorem bump?_none {x : ℕ} {rising : List ℕ} (h : bump? x rising = none) : ∀ z ∈ rising, z ≤ x := by
  unfold bump? at h
  split at h
  next hdrop => simpa using List.dropWhile_eq_nil_iff.mp hdrop
  next => simp at h

/-- `next?` leads to the least arrangement that is greater, and fails on descending ones only. -/
theorem next?_spec (s : List ℕ) :
    match next? s with
    | some t => t.Perm s ∧ s < t ∧ ∀ u : List ℕ, u.Perm s → s < u → t ≤ u
    | none => s.Pairwise (· ≥ ·) := by
  induction s with
  | nil => simp [next?]
  | cons x rest ih =>
    unfold next?
    cases hnext : next? rest with
    | some later =>
      rw [hnext] at ih
      obtain ⟨hperm, hlt, hleast⟩ := ih
      refine ⟨hperm.cons x, List.cons_lt_cons_iff.mpr (.inr ⟨rfl, hlt⟩), fun u hu hxu => ?_⟩
      match u, hu with
      | [], hu => exact absurd hu.symm.eq_nil (by simp)
      | y :: u, hu =>
        rcases List.cons_lt_cons_iff.mp hxu with hxy | ⟨rfl, hrest⟩
        · exact cons_le_cons_iff.mpr (.inl hxy)
        · exact cons_le_cons_iff.mpr (.inr ⟨rfl, hleast u hu.cons_inv hrest⟩)
    | none =>
      rw [hnext] at ih
      dsimp only
      have hrising : rest.reverse.Pairwise (· ≤ ·) := List.pairwise_reverse.mpr ih
      cases hbump : bump? x rest.reverse with
      | none =>
        refine List.pairwise_cons.mpr ⟨fun z hz => ?_, ih⟩
        exact bump?_none hbump z (List.mem_reverse.mpr hz)
      | some t =>
        obtain ⟨y, later, rfl, hxy, hleast, hlater, hperm⟩ := bump?_some hrising hbump
        have hperm : (y :: later).Perm (x :: rest) :=
          hperm.trans ((List.reverse_perm rest).cons x)
        refine ⟨hperm, List.cons_lt_cons_iff.mpr (.inl hxy), fun u hu hxu => ?_⟩
        match u, hu with
        | [], hu => exact absurd hu.symm.eq_nil (by simp)
        | z :: u, hu =>
          rcases List.cons_lt_cons_iff.mp hxu with hxz | ⟨rfl, hrest⟩
          · have hz : z ∈ rest.reverse := by
              rcases List.mem_cons.mp (hu.mem_iff.mp List.mem_cons_self) with rfl | hz
              · omega
              · exact List.mem_reverse.mpr hz
            rcases Nat.lt_or_eq_of_le (hleast z hz hxz) with hyz | rfl
            · exact cons_le_cons_iff.mpr (.inl hyz)
            · have : u.Perm later := (hu.trans hperm.symm).cons_inv
              exact cons_le_cons_iff.mpr (.inr ⟨rfl, le_of_ascending hlater this⟩)
          · -- what follows `x` descends already, so nothing later begins with `x`
            exact absurd hrest (not_lt.mpr (le_of_descending ih hu.cons_inv))

/-! ### Arrangements with a given beginning -/

theorem lastAgreeing_perm (s : List ℕ) (i : ℕ) : (lastAgreeing s i).Perm s := by
  conv_rhs => rw [← List.take_append_drop (i + 1) s]
  exact (List.mergeSort_perm _ _).append_left _

theorem take_lastAgreeing {s : List ℕ} {i : ℕ} (hi : i < s.length) :
    (lastAgreeing s i).take (i + 1) = s.take (i + 1) := by
  have hlen : (s.take (i + 1)).length = i + 1 := by simp; omega
  rw [lastAgreeing, List.take_append_of_le_length (by omega), List.take_of_length_le (by omega)]

/-- No arrangement with the same beginning comes after `lastAgreeing`. -/
theorem le_lastAgreeing {s t : List ℕ} {i : ℕ} (hperm : t.Perm s)
    (h : t.take (i + 1) = s.take (i + 1)) : t ≤ lastAgreeing s i := by
  rw [← List.take_append_drop (i + 1) t, h]
  refine le_append_of_le _ (le_of_descending ?_ ?_)
  · exact List.pairwise_mergeSort' (fun x y => y ≤ x) (s.drop (i + 1))
  · refine List.Perm.trans ?_ (List.mergeSort_perm _ _).symm
    have : (s.take (i + 1) ++ t.drop (i + 1)).Perm (s.take (i + 1) ++ s.drop (i + 1)) := by
      rw [List.take_append_drop, ← h, List.take_append_drop]
      exact hperm
    exact (List.perm_append_left_iff _).mp this

/-- What lies between two lists that begin in the same way begins so too. -/
theorem take_eq_of_between {s t u : List ℕ} {k : ℕ} (hst : s ≤ t) (htu : t ≤ u)
    (h : s.take k = u.take k) : t.take k = s.take k := by
  induction k generalizing s t u with
  | zero => simp
  | succ k ih =>
    match s, u with
    | [], [] => exact (le_antisymm htu hst) ▸ rfl
    | [], _ :: _ => simp at h
    | _ :: _, [] => simp at h
    | a :: s, b :: u =>
      obtain ⟨rfl, hsu⟩ : a = b ∧ s.take k = u.take k := by simpa using h
      match t with
      | [] => exact absurd hst (by simp)
      | c :: t =>
        rcases cons_le_cons_iff.mp hst with hac | ⟨rfl, hle⟩
        · rcases cons_le_cons_iff.mp htu with hca | ⟨rfl, -⟩ <;> omega
        · rcases cons_le_cons_iff.mp htu with hca | ⟨-, hge⟩
          · omega
          · simpa using ih hle hge hsu

/-! ### How many arrangements are left -/

theorem count_eq_factorial (n : ℕ) : count n = n.factorial := by
  induction n with
  | zero => rfl
  | succ n ih => rw [count, ih, Nat.factorial_succ]

/-- The arrangements of `s` from `s` on. -/
def remaining (s : List ℕ) : Finset (List ℕ) := s.permutations.toFinset.filter (s ≤ ·)

@[simp] theorem mem_remaining {s t : List ℕ} : t ∈ remaining s ↔ t.Perm s ∧ s ≤ t := by
  simp [remaining]

theorem card_remaining_le_count (s : List ℕ) : (remaining s).card ≤ count s.length := by
  rw [count_eq_factorial, ← List.length_permutations]
  exact (Finset.card_filter_le _ _).trans (List.toFinset_card_le _)

theorem card_remaining_lt {s t : List ℕ} (hperm : t.Perm s) (hlt : s < t) :
    (remaining t).card < (remaining s).card := by
  refine Finset.card_lt_card (Finset.ssubset_iff_of_subset (fun u hu => ?_) |>.mpr ⟨s, ?_, ?_⟩)
  · rw [mem_remaining] at hu ⊢
    exact ⟨hu.1.trans hperm, hlt.le.trans hu.2⟩
  · simp
  · rw [mem_remaining]
    exact fun h => absurd h.2 (not_le.mpr hlt)

end OffshoreFlights.Arrangement
