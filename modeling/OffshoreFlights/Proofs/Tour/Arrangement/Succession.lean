import Mathlib.Order.Bounds.Basic
import OffshoreFlights.Proofs.Tour.Arrangement.InPlace

/-! The arrangements of a list one after another. A step in place leads to the least arrangement
that is greater, so repeated steps meet every arrangement once. A step from the last arrangement
with a given beginning passes over the other arrangements with that beginning, and over nothing
else. -/

namespace OffshoreFlights.Arrangement

/-- The arrangements of `s` that come after all of `passed`. -/
def beyond (s : List ℕ) (passed : Set (List ℕ)) : Set (List ℕ) :=
  {u | u.Perm s ∧ ∀ v ∈ passed, v < u}

/-- The arrangements of `s` that agree with it up to position `i`. -/
def agreeing (s : List ℕ) (i : ℕ) : Set (List ℕ) :=
  {u | u.Perm s ∧ u.take (i + 1) = s.take (i + 1)}

/-- A step in place from `reached` leads to the least arrangement of `s` after all of `passed`. If
there is none, it says so and leaves the ascending arrangement. -/
structure LeadsPast (s : List ℕ) (passed : Set (List ℕ)) (reached : List ℕ) : Prop where
  next (t : List ℕ) : nextInPlace reached = .ok (true, t) ↔ IsLeast (beyond s passed) t
  last (t : List ℕ) : nextInPlace reached = .ok (false, t) ↔
    beyond s passed = ∅ ∧ t.Perm s ∧ t.Pairwise (· ≤ ·)

/-- The arrangements met by repeated steps in place from `s`, up to the last of them. The step from
there leaves the arrangement `left`. -/
inductive Meets : (s : List ℕ) → (met : List (List ℕ)) → (left : List ℕ) → Prop
  | last {s left : List ℕ} : nextInPlace s = .ok (false, left) → Meets s [s] left
  | step {s t left : List ℕ} {met : List (List ℕ)} :
    nextInPlace s = .ok (true, t) → Meets t met left → Meets s (s :: met) left

/-- From `s` on, the step from the last arrangement that agrees with `s` up to position `i` passes
over the arrangements that agree with it so far, and over no others. -/
structure PassesOver (s : List ℕ) (i : ℕ) : Prop where
  next (t : List ℕ) : nextInPlace (lastAgreeing s i) = .ok (true, t) →
    ∀ u : List ℕ, u.Perm s → s ≤ u → (u < t ↔ u ∈ agreeing s i)
  last (t : List ℕ) : nextInPlace (lastAgreeing s i) = .ok (false, t) →
    ∀ u : List ℕ, u.Perm s → s ≤ u → u ∈ agreeing s i

variable {s t : List ℕ} {i : ℕ}

/-! ### One step -/

theorem ascending_unique (ht : t.Perm s) (hs : s.Pairwise (· ≤ ·)) (hsorted : t.Pairwise (· ≤ ·)) :
    t = s :=
  ht.eq_of_pairwise (fun _ _ _ _ hab hba => le_antisymm hab hba) hsorted hs

section Leading

variable {passed : Set (List ℕ)} {reached : List ℕ}

theorem LeadsPast.of_isLeast (hstep : nextInPlace reached = .ok (true, t))
    (hleast : IsLeast (beyond s passed) t) : LeadsPast s passed reached := by
  refine ⟨fun u => ?_, fun u => ?_⟩
  · rw [hstep]
    constructor
    · intro h
      cases h
      exact hleast
    · intro h
      rw [hleast.unique h]
  · rw [hstep]
    constructor
    · intro h
      cases h
    · rintro ⟨hempty, -⟩
      exact absurd (hempty ▸ hleast.1) (Set.notMem_empty t)

theorem LeadsPast.of_empty (hstep : nextInPlace reached = .ok (false, t))
    (hempty : beyond s passed = ∅) (ht : t.Perm s) (hsorted : t.Pairwise (· ≤ ·)) :
    LeadsPast s passed reached := by
  refine ⟨fun u => ?_, fun u => ?_⟩
  · rw [hstep]
    constructor
    · intro h
      cases h
    · rintro ⟨hu, -⟩
      exact absurd (hempty ▸ hu) (Set.notMem_empty u)
  · rw [hstep]
    constructor
    · intro h
      cases h
      exact ⟨hempty, ht, hsorted⟩
    · rintro ⟨-, hu, hsorted'⟩
      rw [ascending_unique (hu.trans ht.symm) hsorted hsorted']

theorem LeadsPast.congr {s' : List ℕ} {passed' : Set (List ℕ)}
    (h : LeadsPast s passed reached) (hs : s.Perm s')
    (hbeyond : beyond s passed = beyond s' passed') : LeadsPast s' passed' reached where
  next t := by rw [h.next, hbeyond]
  last t := by rw [h.last, hbeyond, hs.congr_right]

end Leading

/-- A step from an arrangement leads past it. -/
theorem leadsPast_self (s : List ℕ) : LeadsPast s {s} s := by
  have hspec := next?_spec s
  have hbeyond : beyond s {s} = {u | u.Perm s ∧ s < u} := by
    simp only [beyond, Set.mem_singleton_iff, forall_eq]
  cases hnext : next? s with
  | some t =>
    rw [hnext] at hspec
    obtain ⟨hperm, hlt, hleast⟩ := hspec
    refine .of_isLeast (by rw [nextInPlace_eq, next, hnext]) ?_
    rw [hbeyond]
    exact ⟨⟨hperm, hlt⟩, fun u hu => hleast u hu.1 hu.2⟩
  | none =>
    rw [hnext] at hspec
    refine .of_empty (by rw [nextInPlace_eq, next, hnext]) ?_ (List.reverse_perm s)
      (List.pairwise_reverse.mpr hspec)
    rw [hbeyond]
    exact Set.eq_empty_of_forall_notMem fun u hu =>
      absurd hu.2 (not_lt.mpr (le_of_descending hspec hu.1))

/-! ### Repeated steps -/

theorem Meets.sound {met : List (List ℕ)} {left : List ℕ} (h : Meets s met left) :
    met.Pairwise (· < ·) ∧ (∀ u, u ∈ met ↔ u.Perm s ∧ s ≤ u) ∧ left.Perm s ∧
      left.Pairwise (· ≤ ·) := by
  induction h with
  | @last s left hstep =>
    obtain ⟨hempty, hperm, hsorted⟩ := ((leadsPast_self s).last left).mp hstep
    refine ⟨List.pairwise_singleton _ _, fun u => ?_, hperm, hsorted⟩
    rw [List.mem_singleton]
    constructor
    · rintro rfl
      exact ⟨List.Perm.refl u, le_refl u⟩
    · rintro ⟨hu, hle⟩
      by_contra hne
      have : u ∈ beyond s {s} := ⟨hu, by simpa using lt_of_le_of_ne hle (Ne.symm hne)⟩
      exact absurd (hempty ▸ this) (Set.notMem_empty u)
  | @step s t left met hstep _ ih =>
    obtain ⟨⟨hts, hpassed⟩, hleast⟩ := ((leadsPast_self s).next t).mp hstep
    obtain ⟨hpairwise, hmem, hperm, hsorted⟩ := ih
    have hlt : s < t := hpassed s rfl
    refine ⟨List.pairwise_cons.mpr ⟨fun u hu => hlt.trans_le ((hmem u).mp hu).2, hpairwise⟩,
      fun u => ?_, hperm.trans hts, hsorted⟩
    rw [List.mem_cons, hmem]
    constructor
    · rintro (rfl | ⟨hu, htu⟩)
      · exact ⟨List.Perm.refl u, le_refl u⟩
      · exact ⟨hu.trans hts, hlt.le.trans htu⟩
    · rintro ⟨hu, hle⟩
      rcases hle.eq_or_lt with rfl | hsu
      · exact .inl rfl
      · exact .inr ⟨hu.trans hts.symm, hleast ⟨hu, by simpa using hsu⟩⟩

/-- Each step leaves fewer arrangements to come, so the steps end. -/
theorem exists_meets (s : List ℕ) : ∃ met left, Meets s met left := by
  induction hcard : (remaining s).card using Nat.strong_induction_on generalizing s with
  | _ n ih =>
    have hspec := next?_spec s
    have hstep := nextInPlace_eq s
    rw [next] at hstep
    cases hnext : next? s with
    | none =>
      rw [hnext] at hstep
      exact ⟨[s], _, .last hstep⟩
    | some t =>
      rw [hnext] at hspec hstep
      obtain ⟨met, left, hmeets⟩ := ih _ (hcard ▸ card_remaining_lt hspec.1 hspec.2.1) t rfl
      exact ⟨s :: met, left, .step hstep hmeets⟩

/-! ### Steps from the last arrangement with a given beginning -/

theorem isGreatest_lastAgreeing (hi : i < s.length) :
    IsGreatest (agreeing s i) (lastAgreeing s i) :=
  ⟨⟨lastAgreeing_perm s i, take_lastAgreeing hi⟩, fun _ hu => le_lastAgreeing hu.1 hu.2⟩

theorem leadsPast_agreeing (hi : i < s.length) : LeadsPast s (agreeing s i) (lastAgreeing s i) := by
  refine (leadsPast_self _).congr (lastAgreeing_perm s i) (Set.ext fun u => ?_)
  have hgreatest := isGreatest_lastAgreeing hi
  constructor
  · rintro ⟨hu, hlt⟩
    exact ⟨hu.trans (lastAgreeing_perm s i),
      fun v hv => (hgreatest.2 hv).trans_lt (hlt _ rfl)⟩
  · rintro ⟨hu, hlt⟩
    refine ⟨hu.trans (lastAgreeing_perm s i).symm, ?_⟩
    rintro _ rfl
    exact hlt _ hgreatest.1

/-- What comes from `s` on up to the last arrangement that agrees with it agrees with it too. -/
theorem mem_agreeing_iff (hi : i < s.length) {u : List ℕ} (hu : u.Perm s) (hle : s ≤ u) :
    u ∈ agreeing s i ↔ u ≤ lastAgreeing s i := by
  have hgreatest := isGreatest_lastAgreeing hi
  exact ⟨fun h => hgreatest.2 h,
    fun h => ⟨hu, take_eq_of_between hle h hgreatest.1.2.symm⟩⟩

/-- What comes from `s` on and does not agree with it comes after all that does. -/
theorem mem_beyond_of_notMem (hi : i < s.length) {u : List ℕ} (hu : u.Perm s) (hle : s ≤ u)
    (hnot : u ∉ agreeing s i) : u ∈ beyond s (agreeing s i) := by
  rw [mem_agreeing_iff hi hu hle, not_le] at hnot
  exact ⟨hu, fun v hv => ((isGreatest_lastAgreeing hi).2 hv).trans_lt hnot⟩

theorem passesOver (hi : i < s.length) : PassesOver s i := by
  have hpast := leadsPast_agreeing hi
  refine ⟨fun t hstep u hu hle => ?_, fun t hstep u hu hle => ?_⟩
  · obtain ⟨⟨-, hpassed⟩, hleast⟩ := (hpast.next t).mp hstep
    refine ⟨fun hlt => ?_, hpassed u⟩
    by_contra hnot
    exact absurd hlt (not_lt.mpr (hleast (mem_beyond_of_notMem hi hu hle hnot)))
  · by_contra hnot
    have hmem := mem_beyond_of_notMem hi hu hle hnot
    rw [((hpast.last t).mp hstep).1] at hmem
    exact Set.notMem_empty u hmem

/-- A step in place leads to the least arrangement that is greater, also among equal elements.
Repeated steps from the ascending arrangement meet every arrangement once, in rising order. After
the elements behind a position were put in descending order, the step leads past all arrangements
that agree up to that position, and passes over no others. -/
theorem step_is_successor (s : List ℕ) :
    LeadsPast s {s} s ∧
      (s.Pairwise (· ≤ ·) → ∃ met, Meets s met s ∧ met.Pairwise (· < ·) ∧
        ∀ u, u ∈ met ↔ u.Perm s) ∧
      ∀ i < s.length, LeadsPast s (agreeing s i) (lastAgreeing s i) ∧ PassesOver s i := by
  refine ⟨leadsPast_self s, fun hs => ?_, fun i hi => ⟨leadsPast_agreeing hi, passesOver hi⟩⟩
  obtain ⟨met, left, hmeets⟩ := exists_meets s
  obtain ⟨hpairwise, hmem, hperm, hsorted⟩ := hmeets.sound
  obtain rfl := ascending_unique hperm hs hsorted
  refine ⟨met, hmeets, hpairwise, fun u => (hmem u).trans ⟨And.left, fun hu => ⟨hu, ?_⟩⟩⟩
  exact le_of_ascending hs hu

/-- The arrangements that begin with 1 are passed over in one step. -/
theorem step_is_successor_repeated :
    [1, 2, 2, 3].Pairwise (· ≤ ·) ∧ 0 < [1, 2, 2, 3].length ∧
      (∃ met, Meets [1, 2, 2, 3] met [1, 2, 2, 3] ∧ met.Pairwise (· < ·) ∧
        ∀ u, u ∈ met ↔ u.Perm [1, 2, 2, 3]) ∧
      IsLeast (beyond [1, 2, 2, 3] (agreeing [1, 2, 2, 3] 0)) [2, 1, 2, 3] := by
  have hsorted : [1, 2, 2, 3].Pairwise (· ≤ ·) := by decide
  have hlength : 0 < [1, 2, 2, 3].length := by decide
  have hlast : lastAgreeing [1, 2, 2, 3] 0 = [1, 3, 2, 2] := by cbv
  have hstep : nextInPlace (lastAgreeing [1, 2, 2, 3] 0) = .ok (true, [2, 1, 2, 3]) := by
    rw [hlast]
    rfl
  obtain ⟨-, hmeets, hpast⟩ := step_is_successor [1, 2, 2, 3]
  exact ⟨hsorted, hlength, hmeets hsorted, ((hpast 0 hlength).1.next _).mp hstep⟩

end OffshoreFlights.Arrangement
