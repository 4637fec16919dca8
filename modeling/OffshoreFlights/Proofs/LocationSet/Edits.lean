import Mathlib.Data.Finset.Max
import Mathlib.Data.Finset.Sort
import Mathlib.Data.Finset.SymmDiff
import Mathlib.Data.Nat.Bitwise
import OffshoreFlights.Proofs.LocationSet

/-! Sets of locations that are built by edits, one after another. Whatever the edits are, the bits
stand for the finite set that the same edits build, and every question about the set is answered as
for this one. The order of the sets is that of their greatest difference. -/

namespace OffshoreFlights.LocationSet

/-- What makes a set from a set. -/
inductive Edit where
  | insert (i : ℕ)
  | erase (i : ℕ)
  /-- Starts anew from a list. -/
  | ofList (ids : List ℕ)

namespace Edit

/-- The ids that an edit names. -/
def ids : Edit → List ℕ
  | insert i | erase i => [i]
  | ofList ids => ids

def apply (s : LocationSet) : Edit → Except Fault LocationSet
  | insert i => s.insertChecked i
  | erase i => s.eraseChecked i
  | ofList ids => ofListChecked ids

/-- What an edit does to a finite set. -/
def meaning (S : Finset ℕ) : Edit → Finset ℕ
  | insert i => Insert.insert i S
  | erase i => S.erase i
  | ofList ids => ids.toFinset

/-- A set can hold all ids that an edit names. -/
def Fits (e : Edit) : Prop := ∀ i ∈ e.ids, i < capacity

end Edit

/-- The set that edits build from the empty one. -/
def build (edits : List Edit) : Except Fault LocationSet := edits.foldlM Edit.apply empty

/-- The finite set that edits build from the empty one. -/
def built (edits : List Edit) : Finset ℕ := edits.foldl Edit.meaning ∅

/-- Membership by a mask for the bit of an id, for an id that has one. -/
def masked (s : LocationSet) (i : ℕ) : Bool :=
  decide (i < capacity) && s.bits &&& 1#64 <<< (i % capacity) != 0#64

/-- A set answers every question as a finite set does. -/
structure Represents (s : LocationSet) (S : Finset ℕ) : Prop where
  contains (i : ℕ) : s.contains i = decide (i ∈ S)
  masked (i : ℕ) : s.masked i = decide (i ∈ S)
  below (i : ℕ) : capacity ≤ i → i ∉ S
  toList : s.toList = S.sort (· ≤ ·)
  size : s.size = S.card
  /-- The members are counted by the ones among the bits. -/
  ones : s.bits.cpop.toNat = S.card
  isEmpty : s.isEmpty = true ↔ S = ∅

/-- An id past the capacity is refused. -/
structure Refuses (s : LocationSet) (i : ℕ) : Prop where
  insert : s.insertChecked i = .error (.beyondSet i)
  erase : s.eraseChecked i = .error (.beyondSet i)
  /-- The first of a list to be past the capacity is the one reported. -/
  ofList (before after : List ℕ) (h : ∀ j ∈ before, j < capacity) :
    ofListChecked (before ++ i :: after) = .error (.beyondSet i)

variable {s t : LocationSet} {i : ℕ}

theorem lt_capacity_of_contains (h : s.contains i = true) : i < capacity := BitVec.lt_of_getLsbD h

/-! ### The bits -/

theorem masked_eq_contains (s : LocationSet) (i : ℕ) : s.masked i = s.contains i := by
  unfold masked
  by_cases hi : i < capacity
  · have hone : BitVec.twoPow 64 i ≠ 0#64 := fun h => by
      have := congrArg (BitVec.getLsbD · i) h
      simp [show i < 64 from hi] at this
    rw [decide_eq_true hi, Bool.true_and, Nat.mod_eq_of_lt hi, ← BitVec.twoPow_eq,
      BitVec.and_twoPow, contains]
    cases s.bits.getLsbD i <;> simp [hone]
  · rw [decide_eq_false hi, Bool.false_and, eq_comm, Bool.eq_false_iff]
    exact fun h => hi (lt_capacity_of_contains h)

theorem cpopNatRec_eq_length (x : BitVec 64) (n : ℕ) :
    x.cpopNatRec n 0 = ((List.range n).filter x.getLsbD).length := by
  induction n with
  | zero => rfl
  | succ n ih =>
    rw [BitVec.cpopNatRec_succ, BitVec.cpopNatRec_eq, ih, List.range_succ, List.filter_append,
      List.length_append]
    cases h : x.getLsbD n <;> simp [h]

theorem cpop_eq_size (s : LocationSet) : s.bits.cpop.toNat = s.size := by
  rw [BitVec.toNat_cpop]
  exact cpopNatRec_eq_length s.bits 64

theorem testBit_bits (s : LocationSet) (i : ℕ) : s.bits.toNat.testBit i = s.contains i :=
  BitVec.testBit_toNat s.bits

/-- The set that has the greatest difference has the greater bits. -/
theorem toNat_lt_of_isGreatest
    (hi : IsGreatest ((symmDiff s.members t.members : Finset ℕ) : Set ℕ) i) (ht : i ∈ t.members) :
    s.bits.toNat < t.bits.toNat := by
  obtain ⟨hmem, hgreatest⟩ := hi
  rw [Finset.mem_coe] at hmem
  refine Nat.lt_of_testBit i ?_ ?_ fun j hij => ?_
  · rw [testBit_bits, Bool.eq_false_iff, ne_eq, ← mem_members]
    rcases Finset.mem_symmDiff.mp hmem with ⟨-, hnot⟩ | ⟨-, hnot⟩
    · exact absurd ht hnot
    · exact hnot
  · rwa [testBit_bits, ← mem_members]
  · rw [testBit_bits, testBit_bits, Bool.eq_iff_iff, ← mem_members, ← mem_members]
    by_contra hdiffer
    have hj : j ∈ symmDiff s.members t.members := by
      rw [Finset.mem_symmDiff]
      by_cases hs : j ∈ s.members <;> simp_all
    exact absurd (hgreatest (Finset.mem_coe.mpr hj)) (not_le.mpr hij)

theorem compare_eq_lt_iff : compare s t = .lt ↔
    ∃ i ∈ t.members, IsGreatest ((symmDiff s.members t.members : Finset ℕ) : Set ℕ) i := by
  rw [compare, compare_lt_iff_lt]
  constructor
  · intro hlt
    have hne : s.members ≠ t.members := fun h => by
      rw [members_injective h] at hlt
      exact lt_irrefl _ hlt
    have hdiffer : (symmDiff s.members t.members).Nonempty :=
      Finset.nonempty_iff_ne_empty.mpr fun h => hne (symmDiff_eq_bot.mp h)
    have hgreatest := Finset.isGreatest_max' _ hdiffer
    refine ⟨_, ?_, hgreatest⟩
    by_contra hnot
    -- if the greatest difference were in `s`, then `s` would be the greater
    rcases Finset.mem_symmDiff.mp (Finset.mem_coe.mp hgreatest.1) with ⟨hs, -⟩ | ⟨ht, -⟩
    · generalize (symmDiff s.members t.members).max' hdiffer = i at hgreatest hs
      rw [symmDiff_comm] at hgreatest
      exact absurd hlt (not_lt.mpr (toNat_lt_of_isGreatest hgreatest hs).le)
    · exact hnot ht
  · rintro ⟨i, ht, hi⟩
    exact toNat_lt_of_isGreatest hi ht

/-! ### The members -/

theorem toList_pairwise (s : LocationSet) : s.toList.Pairwise (· < ·) :=
  List.pairwise_lt_range.filter _

theorem toList_eq_sort (s : LocationSet) : s.toList = s.members.sort (· ≤ ·) :=
  ((List.toFinset_sort _ (s.toList_pairwise.imp fun h => h.ne)).mpr
    (s.toList_pairwise.imp fun h => h.le)).symm

theorem size_eq_card (s : LocationSet) : s.size = s.members.card :=
  (List.toFinset_card_of_nodup (s.toList_pairwise.imp fun h => h.ne)).symm

@[simp] theorem members_empty : empty.members = ∅ := by
  ext i
  simp

theorem isEmpty_iff : s.isEmpty = true ↔ s.members = ∅ := by
  rw [← members_empty, members_injective.eq_iff, isEmpty, beq_iff_eq]
  constructor
  · intro h
    cases s
    exact congrArg LocationSet.mk h
  · rintro rfl
    rfl

theorem represents_members (s : LocationSet) : Represents s s.members where
  contains i := by rw [Bool.eq_iff_iff, decide_eq_true_iff, mem_members]
  masked i := by rw [masked_eq_contains, Bool.eq_iff_iff, decide_eq_true_iff, mem_members]
  below i hi h := absurd (lt_capacity_of_contains (mem_members.mp h)) (not_lt.mpr hi)
  toList := s.toList_eq_sort
  size := s.size_eq_card
  ones := s.cpop_eq_size.trans s.size_eq_card
  isEmpty := isEmpty_iff

theorem members_insert (hi : i < capacity) : (s.insert i).members = Insert.insert i s.members := by
  ext j
  rw [mem_members, contains_insert, Finset.mem_insert, mem_members, decide_eq_true hi,
    Bool.true_and, Bool.or_eq_true, decide_eq_true_iff, or_comm, eq_comm]

theorem members_erase (s : LocationSet) (i : ℕ) : (s.erase i).members = s.members.erase i := by
  ext j
  rw [mem_members, contains_erase, Finset.mem_erase, mem_members, Bool.and_eq_true,
    Bool.not_eq_true', decide_eq_false_iff_not, and_comm]

/-! ### The edits -/

/-- An edit that fits does to the members what it means. -/
theorem Edit.Fits.apply_eq {e : Edit} (h : e.Fits) (s : LocationSet) :
    ∃ t, e.apply s = .ok t ∧ t.members = e.meaning s.members := by
  cases e with
  | insert i =>
    have hi : i < capacity := h i (List.mem_singleton_self i)
    exact ⟨s.insert i, by rw [apply, insertChecked, checkId, if_pos hi]; rfl, members_insert hi⟩
  | erase i =>
    have hi : i < capacity := h i (List.mem_singleton_self i)
    exact ⟨s.erase i, by rw [apply, eraseChecked, checkId, if_pos hi]; rfl, members_erase s i⟩
  | ofList ids =>
    replace h : ∀ i ∈ ids, i < capacity := h
    exact ⟨LocationSet.ofList ids, by rw [apply, ofListChecked, forM_checkId h]; rfl,
      members_ofList h⟩

theorem foldlM_apply {edits : List Edit} (h : ∀ e ∈ edits, e.Fits) (s : LocationSet) :
    ∃ t, edits.foldlM Edit.apply s = .ok t ∧ t.members = edits.foldl Edit.meaning s.members := by
  induction edits generalizing s with
  | nil => exact ⟨s, rfl, rfl⟩
  | cons e edits ih =>
    obtain ⟨he, hedits⟩ := List.forall_mem_cons.mp h
    obtain ⟨u, hu, hmeaning⟩ := he.apply_eq s
    obtain ⟨t, ht, hmembers⟩ := ih hedits u
    refine ⟨t, ?_, ?_⟩
    · rw [List.foldlM_cons, hu]
      exact ht
    · rw [List.foldl_cons, hmembers, hmeaning]

theorem build_eq {edits : List Edit} (h : ∀ e ∈ edits, e.Fits) :
    ∃ s, build edits = .ok s ∧ s.members = built edits := by
  obtain ⟨s, hs, hmembers⟩ := foldlM_apply h empty
  exact ⟨s, hs, by rw [hmembers, members_empty, built]⟩

theorem refuses (s : LocationSet) (hi : capacity ≤ i) : Refuses s i := by
  have hcheck : checkId i = .error (.beyondSet i) := by rw [checkId, if_neg (not_lt.mpr hi)]
  refine ⟨by rw [insertChecked, hcheck]; rfl, by rw [eraseChecked, hcheck]; rfl,
    fun before after h => ?_⟩
  have hbefore := forM_checkId h
  rw [List.forM_eq_forM] at hbefore
  rw [ofListChecked, List.forM_eq_forM, List.forM_append, hbefore, List.forM_cons, hcheck]
  rfl

/-- Edits whose ids fit build what they mean. Two sets that are built so are the same if they have
the same members, and the one that has the greatest of their differences is the greater. An id past
the capacity is refused. -/
theorem build_represents (edits others : List Edit) (h : ∀ e ∈ edits, e.Fits)
    (hothers : ∀ e ∈ others, e.Fits) :
    ∃ s t, build edits = .ok s ∧ build others = .ok t ∧
      Represents s (built edits) ∧ Represents t (built others) ∧
      (s = t ↔ built edits = built others) ∧
      (compare s t = .lt ↔
        ∃ i ∈ built others,
          IsGreatest ((symmDiff (built edits) (built others) : Finset ℕ) : Set ℕ) i) ∧
      ∀ i, capacity ≤ i → Refuses s i := by
  obtain ⟨s, hs, hbuilt⟩ := build_eq h
  obtain ⟨t, ht, hbuilt'⟩ := build_eq hothers
  rw [← hbuilt, ← hbuilt']
  exact ⟨s, t, hs, ht, represents_members s, represents_members t, members_injective.eq_iff.symm,
    compare_eq_lt_iff, fun i hi => refuses s hi⟩

/-- The top bit is set and cleared again, and an id is added twice. -/
theorem build_represents_top :
    (∀ e ∈ [Edit.insert 63, .insert 5, .insert 5, .erase 63], e.Fits) ∧
      (∀ e ∈ [Edit.ofList [63, 0, 5], .erase 5], e.Fits) ∧
      ∃ s t, build [.insert 63, .insert 5, .insert 5, .erase 63] = .ok s ∧
        build [.ofList [63, 0, 5], .erase 5] = .ok t ∧ Represents s {5} ∧ Represents t {0, 63} ∧
        compare s t = .lt := by
  have hfits : ∀ e ∈ [Edit.insert 63, .insert 5, .insert 5, .erase 63], e.Fits := by
    simp [Edit.Fits, Edit.ids, capacity]
  have hfits' : ∀ e ∈ [Edit.ofList [63, 0, 5], .erase 5], e.Fits := by
    simp [Edit.Fits, Edit.ids, capacity]
  obtain ⟨s, t, hs, ht, hrepresents, hrepresents', -, hcompare, -⟩ :=
    build_represents _ _ hfits hfits'
  have hbuilt : built [.insert 63, .insert 5, .insert 5, .erase 63] = {5} := by decide
  have hbuilt' : built [.ofList [63, 0, 5], .erase 5] = {0, 63} := by decide
  have hdiffer : symmDiff {5} {0, 63} = ({0, 5, 63} : Finset ℕ) := by decide
  rw [hbuilt] at hrepresents hcompare
  rw [hbuilt'] at hrepresents' hcompare
  rw [hdiffer] at hcompare
  refine ⟨hfits, hfits', s, t, hs, ht, hrepresents, hrepresents', hcompare.mpr ⟨63, ?_, ?_, ?_⟩⟩
  · decide
  · decide
  · intro i hi
    simp only [Finset.coe_insert, Finset.coe_singleton, Set.mem_insert_iff,
      Set.mem_singleton_iff] at hi
    omega

end OffshoreFlights.LocationSet
