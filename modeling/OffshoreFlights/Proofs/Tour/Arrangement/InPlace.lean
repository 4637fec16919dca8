import OffshoreFlights.Fault
import OffshoreFlights.Proofs.Tour.Arrangement

/-! The step to the next arrangement in place: the list is read by index, two of its elements are
swapped, and what stands behind the first of them is reversed. Every access is checked, and ends in
a fault where it is out of range. No step meets a fault, and each is the step of `next`. -/

namespace OffshoreFlights.Arrangement

/-- The last place up to `i` whose element is greater than the one before it, or zero. -/
def riseInPlace (s : List ℕ) : (i : ℕ) → Except Fault ℕ
  | 0 => return 0
  | i + 1 => do
    let before ← elementAt s i
    let x ← elementAt s (i + 1)
    if x ≤ before then riseInPlace s i else return i + 1

/-- The last place up to `j` whose element is greater than `x`. It is a fault if there is none. -/
def greaterInPlace (s : List ℕ) (x : ℕ) : (j : ℕ) → Except Fault ℕ
  | 0 => do
    let y ← elementAt s 0
    if y ≤ x then throw .outOfRange else return 0
  | j + 1 => do
    let y ← elementAt s (j + 1)
    if y ≤ x then greaterInPlace s x j else return j + 1

def nextInPlace (s : List ℕ) : Except Fault (Bool × List ℕ) := do
  if s.length < 2 then return (false, s)
  let i ← riseInPlace s (s.length - 1)
  if i = 0 then return (false, s.reverse)
  let x ← elementAt s (i - 1)
  let j ← greaterInPlace s x (s.length - 1)
  let y ← elementAt s j
  let swapped := (s.set (i - 1) y).set j x
  return (true, swapped.take i ++ (swapped.drop i).reverse)

theorem elementAt_of_lt {β : Type} {s : List β} {i : ℕ} (h : i < s.length) :
    elementAt s i = .ok s[i] := by
  simp [elementAt, h]

/-- An arrangement descends, or rises for the last time somewhere. -/
theorem descending_or_rise (s : List ℕ) :
    s.Pairwise (· ≥ ·) ∨ ∃ before x y after, s = before ++ x :: y :: after ∧ x < y ∧
      (y :: after).Pairwise (· ≥ ·) := by
  induction s with
  | nil => exact .inl List.Pairwise.nil
  | cons x rest ih =>
    rcases ih with hrest | ⟨before, z, y, after, rfl, hzy, hafter⟩
    · cases rest with
      | nil => exact .inl (List.pairwise_singleton _ _)
      | cons y after =>
        by_cases hxy : x < y
        · exact .inr ⟨[], x, y, after, rfl, hxy, hrest⟩
        · refine .inl (List.pairwise_cons.mpr ⟨fun z hz => ?_, hrest⟩)
          rcases List.mem_cons.mp hz with rfl | hz
          · omega
          · have := (List.pairwise_cons.mp hrest).1 z hz
            omega
    · exact .inr ⟨x :: before, z, y, after, rfl, hzy, hafter⟩

theorem next?_of_descending {s : List ℕ} (h : s.Pairwise (· ≥ ·)) : next? s = none := by
  have hspec := next?_spec s
  cases hnext : next? s with
  | none => rfl
  | some t =>
    rw [hnext] at hspec
    exact absurd hspec.2.1 (not_lt.mpr (le_of_descending h hspec.1))

theorem next?_append {t later : List ℕ} (h : next? t = some later) (before : List ℕ) :
    next? (before ++ t) = some (before ++ later) := by
  induction before with
  | nil => exact h
  | cons x before ih => rw [List.cons_append, next?, ih]; rfl

/-- Elements that do not rise are passed over. -/
theorem riseInPlace_add {s : List ℕ} {n : ℕ} (m : ℕ) (hlength : n + m < s.length)
    (h : ∀ k (hk : k < m), s[n + k + 1] ≤ s[n + k]) :
    riseInPlace s (n + m) = riseInPlace s n := by
  induction m with
  | zero => rfl
  | succ m ih =>
    rw [← Nat.add_assoc, riseInPlace, elementAt_of_lt (by omega), elementAt_of_lt (by omega)]
    simp only [bind, Except.bind]
    rw [if_pos (h m (Nat.lt_succ_self m))]
    exact ih (by omega) fun k hk => h k (by omega)

/-- Elements that are not greater are passed over. -/
theorem greaterInPlace_add {s : List ℕ} {x n : ℕ} (m : ℕ) (hlength : n + m < s.length)
    (h : ∀ k (hk : k < m), s[n + k + 1] ≤ x) :
    greaterInPlace s x (n + m) = greaterInPlace s x n := by
  induction m with
  | zero => rfl
  | succ m ih =>
    rw [← Nat.add_assoc, greaterInPlace, elementAt_of_lt (by omega)]
    simp only [bind, Except.bind]
    rw [if_pos (h m (Nat.lt_succ_self m))]
    exact ih (by omega) fun k hk => h k (by omega)

theorem greaterInPlace_of_lt {s : List ℕ} {x j : ℕ} (hj : j < s.length) (h : x < s[j]) :
    greaterInPlace s x j = .ok j := by
  cases j with
  | zero =>
    rw [greaterInPlace, elementAt_of_lt hj]
    simp only [bind, Except.bind]
    rw [if_neg (by omega)]
    rfl
  | succ j =>
    rw [greaterInPlace, elementAt_of_lt hj]
    simp only [bind, Except.bind]
    rw [if_neg (by omega)]
    rfl

/-- A descending end of a list is passed over. -/
theorem riseInPlace_of_descending (before : List ℕ) {tail : List ℕ} (htail : tail ≠ [])
    (h : tail.Pairwise (· ≥ ·)) :
    riseInPlace (before ++ tail) ((before ++ tail).length - 1) =
      riseInPlace (before ++ tail) before.length := by
  have hlength : 0 < tail.length := List.length_pos_of_ne_nil htail
  rw [List.length_append, Nat.add_sub_assoc hlength]
  refine riseInPlace_add _ (by rw [List.length_append]; omega) fun k hk => ?_
  rw [List.getElem_append_right (by omega), List.getElem_append_right (by omega)]
  exact List.pairwise_iff_getElem.mp h _ _ _ _ (by omega)

/-- The first greater element from the end, before which those that are not greater stand. -/
theorem greaterInPlace_append {x y : ℕ} (before : List ℕ) {low : List ℕ} (hy : x < y)
    (hlow : ∀ z ∈ low, z ≤ x) :
    greaterInPlace (before ++ y :: low) x ((before ++ y :: low).length - 1) =
      .ok before.length := by
  have hlast : (before ++ y :: low).length - 1 = before.length + low.length := by
    simp
  rw [hlast, greaterInPlace_add _ (by simp) fun k hk => ?_]
  · exact greaterInPlace_of_lt (by simp) (by simpa using hy)
  · rw [List.getElem_append_right (by omega)]
    have : before.length + k + 1 - before.length = k + 1 := by omega
    simp only [this, List.getElem_cons_succ]
    exact hlow _ (List.getElem_mem _)

/-- Of descending elements, those that are greater than `x` come first. -/
theorem exists_split {x y : ℕ} {after : List ℕ} (hxy : x < y)
    (h : (y :: after).Pairwise (· ≥ ·)) :
    ∃ high z low, y :: after = high ++ z :: low ∧ x < z ∧ (∀ w ∈ low, w ≤ x) ∧
      bump? x (y :: after).reverse = some (z :: (low.reverse ++ x :: high.reverse)) := by
  have hrising : (y :: after).reverse.Pairwise (· ≤ ·) := List.pairwise_reverse.mpr h
  cases hbump : bump? x (y :: after).reverse with
  | none => exact absurd (bump?_none hbump y (by simp)) (by omega)
  | some t =>
    have hsplit : (y :: after).reverse.takeWhile (· ≤ x) ++ (y :: after).reverse.dropWhile (· ≤ x) =
        (y :: after).reverse := List.takeWhile_append_dropWhile
    have hlow : ∀ w ∈ (y :: after).reverse.takeWhile (· ≤ x), w ≤ x := fun w hw => by
      simpa using List.mem_takeWhile_imp hw
    obtain ⟨z, rest, rfl, hz, -, -, -⟩ := bump?_some hrising hbump
    unfold bump? at hbump
    split at hbump
    · cases hbump
    next z' greater hdrop =>
    rw [hdrop] at hsplit
    obtain ⟨rfl, rfl⟩ := List.cons.inj (Option.some.inj hbump)
    refine ⟨greater.reverse, z', ((y :: after).reverse.takeWhile (· ≤ x)).reverse, ?_, hz, ?_, ?_⟩
    · have := congrArg List.reverse hsplit
      simpa using this.symm
    · intro w hw
      exact hlow w (List.mem_reverse.mp hw)
    · simp

/-- Where the last rise begins. -/
theorem riseInPlace_of_rise (before : List ℕ) {x y : ℕ} {after : List ℕ} (hxy : x < y)
    (hafter : (y :: after).Pairwise (· ≥ ·)) :
    riseInPlace (before ++ x :: y :: after) ((before ++ x :: y :: after).length - 1) =
      .ok (before.length + 1) := by
  have hrise := riseInPlace_of_descending (before ++ [x]) (by simp) hafter
  have hbefore : (before ++ [x]).length = before.length + 1 := by simp
  rw [hbefore, List.append_assoc, List.singleton_append] at hrise
  rw [hrise, riseInPlace, elementAt_of_lt (by simp), elementAt_of_lt (by simp)]
  simp only [bind, Except.bind]
  rw [if_neg (by simpa using hxy)]
  rfl

/-- The swap of two elements. -/
theorem set_set_append (before high low : List ℕ) (x z : ℕ) :
    ((before ++ x :: (high ++ z :: low)).set before.length z).set
        (before.length + (high.length + 1)) x =
      before ++ z :: (high ++ x :: low) := by
  rw [List.set_append_right _ _ le_rfl, Nat.sub_self, List.set_cons_zero,
    List.set_append_right _ _ (Nat.le_add_right _ _), Nat.add_sub_cancel_left, List.set_cons_succ,
    List.set_append_right _ _ le_rfl, Nat.sub_self, List.set_cons_zero]

/-- No index of a step in place is out of range, and the step is that of `next`. -/
theorem nextInPlace_eq (s : List ℕ) : nextInPlace s = .ok (next s) := by
  unfold nextInPlace
  by_cases hlength : s.length < 2
  · rw [if_pos hlength]
    match s, hlength with
    | [], _ => rfl
    | [_], _ => rfl
  rw [if_neg hlength]
  have hne : s ≠ [] := by
    rintro rfl
    simp at hlength
  rcases descending_or_rise s with hs | ⟨before, x, y, after, rfl, hxy, hafter⟩
  · have hrise := riseInPlace_of_descending [] hne hs
    rw [List.nil_append, List.length_nil] at hrise
    rw [hrise, next, next?_of_descending hs]
    rfl
  · obtain ⟨high, z, low, hsplit, hz, hlow, hbump⟩ := exists_split hxy hafter
    have hnext : next? (x :: y :: after) = some (z :: (low.reverse ++ x :: high.reverse)) := by
      rw [next?, next?_of_descending hafter]
      exact hbump
    have hx : elementAt (before ++ x :: (high ++ z :: low)) before.length = .ok x := by
      simp [elementAt]
    have hz' : elementAt (before ++ x :: (high ++ z :: low)) (before.length + (high.length + 1)) =
        .ok z := by
      simp [elementAt]
    have hgreater : greaterInPlace (before ++ x :: (high ++ z :: low)) x
        ((before ++ x :: (high ++ z :: low)).length - 1) =
        .ok (before.length + (high.length + 1)) := by
      simpa using greaterInPlace_append (before ++ x :: high) hz hlow
    rw [riseInPlace_of_rise before hxy hafter, next, next?_append hnext, hsplit]
    simp only [bind, Except.bind, Nat.add_sub_cancel, hx, hgreater, hz', set_set_append]
    rw [if_neg (Nat.succ_ne_zero _), List.take_length_add_append, List.drop_length_add_append]
    simp [pure, Except.pure]

end OffshoreFlights.Arrangement
