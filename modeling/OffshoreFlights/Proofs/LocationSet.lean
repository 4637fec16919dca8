import Mathlib.Data.Finset.Insert
import Mathlib.Data.Finset.Dedup
import OffshoreFlights.LocationSet

/-! Sets of locations as finite sets of ids. -/

namespace OffshoreFlights.LocationSet

/-- The members of a set. -/
def members (s : LocationSet) : Finset ℕ := s.toList.toFinset

@[simp] theorem mem_members {s : LocationSet} {i : ℕ} : i ∈ s.members ↔ s.contains i = true := by
  simp [members]

theorem contains_foldl_insert (ids : List ℕ) (s : LocationSet) (i : ℕ) :
    (ids.foldl insert s).contains i = true ↔ s.contains i = true ∨ i < capacity ∧ i ∈ ids := by
  induction ids generalizing s with
  | nil => simp
  | cons j ids ih =>
    rw [List.foldl_cons, ih, contains_insert]
    simp only [Bool.or_eq_true, Bool.and_eq_true, decide_eq_true_eq, List.mem_cons]
    constructor
    · rintro ((h | ⟨h, rfl⟩) | ⟨h, hi⟩)
      · exact .inl h
      · exact .inr ⟨h, .inl rfl⟩
      · exact .inr ⟨h, .inr hi⟩
    · rintro (h | ⟨h, rfl | hi⟩)
      · exact .inl (.inl h)
      · exact .inl (.inr ⟨h, rfl⟩)
      · exact .inr ⟨h, hi⟩

theorem contains_ofList {ids : List ℕ} {i : ℕ} :
    (ofList ids).contains i = true ↔ i < capacity ∧ i ∈ ids := by
  simp [ofList, contains_foldl_insert]

/-- A set made from ids that it can hold has just these as its members. -/
theorem members_ofList {ids : List ℕ} (h : ∀ i ∈ ids, i < capacity) :
    (ofList ids).members = ids.toFinset := by
  ext i
  rw [mem_members, contains_ofList, List.mem_toFinset]
  exact ⟨fun hi => hi.2, fun hi => ⟨h i hi, hi⟩⟩

/-- A set is determined by its members. -/
theorem members_injective : Function.Injective members := by
  intro s t h
  have hcontains : ∀ i, s.contains i = t.contains i := fun i => by
    rw [Bool.eq_iff_iff, ← mem_members, h, mem_members]
  have hbits : s.bits = t.bits := BitVec.eq_of_getLsbD_eq fun i _ => hcontains i
  cases s
  exact congrArg LocationSet.mk hbits

/-- Lists of the same ids make the same set. -/
theorem ofList_congr {s t : List ℕ} (h : ∀ i, i ∈ s ↔ i ∈ t) : ofList s = ofList t := by
  apply members_injective
  ext i
  rw [mem_members, mem_members, contains_ofList, contains_ofList, h]

theorem forM_checkId {ids : List ℕ} (h : ∀ i ∈ ids, i < capacity) :
    ids.forM checkId = .ok () := by
  induction ids with
  | nil => rfl
  | cons i ids ih =>
    obtain ⟨hi, hids⟩ := List.forall_mem_cons.mp h
    rw [List.forM_eq_forM, List.forM_cons, checkId, if_pos hi]
    exact ih hids

/-- Lists of different ids that make the same set hold the same ids. -/
theorem perm_of_ofList_eq {s t : List ℕ} (hs : s.Nodup) (ht : t.Nodup)
    (hs' : ∀ i ∈ s, i < capacity) (ht' : ∀ i ∈ t, i < capacity) (h : ofList s = ofList t) :
    s.Perm t :=
  List.perm_of_nodup_nodup_toFinset_eq hs ht
    (by rw [← members_ofList hs', h, members_ofList ht'])

end OffshoreFlights.LocationSet
