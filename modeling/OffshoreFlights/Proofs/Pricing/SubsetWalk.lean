import Mathlib.Data.Finset.Powerset
import Mathlib.Data.Finset.Sort
import OffshoreFlights.Pricing.SubsetWalk
import OffshoreFlights.Proofs.Tour.Arrangement

/-! The order of a subset walk. Every step leads to the least subset that is greater than the one
reached, except that the extensions of the one reached are passed over if they are not wanted. -/

namespace OffshoreFlights.SubsetWalk

/-- An ascending list of positions below `k`. -/
structure Ascending (k : ℕ) (s : List ℕ) : Prop where
  increasing : s.Pairwise (· < ·)
  below : ∀ i ∈ s, i < k

theorem Ascending.of_append {k : ℕ} {s t : List ℕ} (h : Ascending k (s ++ t)) : Ascending k s :=
  ⟨(List.pairwise_append.mp h.increasing).1, fun i hi => h.below i (List.mem_append_left t hi)⟩

/-- The second list comes after the first and does not extend it. -/
def Passes (s t : List ℕ) : Prop := s < t ∧ ¬s <+: t

theorem passes_cons_cons {x y : ℕ} {s t : List ℕ} :
    Passes (x :: s) (y :: t) ↔ x < y ∨ x = y ∧ Passes s t := by
  unfold Passes
  rw [List.cons_lt_cons_iff, List.cons_prefix_cons]
  constructor
  · rintro ⟨h | ⟨rfl, h⟩, hbegins⟩
    · exact .inl h
    · exact .inr ⟨rfl, h, fun h => hbegins ⟨rfl, h⟩⟩
  · rintro (h | ⟨rfl, h, hbegins⟩)
    · exact ⟨.inl h, fun ⟨hxy, _⟩ => by omega⟩
    · exact ⟨.inr ⟨rfl, h⟩, fun ⟨_, h⟩ => hbegins h⟩

@[simp] theorem not_passes_nil_left (t : List ℕ) : ¬Passes [] t := fun h => h.2 t.nil_prefix

@[simp] theorem not_passes_nil_right (s : List ℕ) : ¬Passes s [] := fun h => by
  simpa using h.1

/-- To pass a list is to pass its beginning, or to exceed its last element. -/
theorem passes_concat {s t : List ℕ} {x : ℕ} :
    Passes (s ++ [x]) t ↔ Passes s t ∨ ∃ y rest, x < y ∧ t = s ++ y :: rest := by
  induction s generalizing t with
  | nil =>
    cases t with
    | nil => simp
    | cons y t => simp [passes_cons_cons]
  | cons a s ih =>
    cases t with
    | nil => simp
    | cons b t =>
      rw [List.cons_append, passes_cons_cons, passes_cons_cons, ih]
      constructor
      · rintro (h | ⟨rfl, h | ⟨y, rest, hxy, rfl⟩⟩)
        · exact .inl (.inl h)
        · exact .inl (.inr ⟨rfl, h⟩)
        · exact .inr ⟨y, rest, hxy, rfl⟩
      · rintro ((h | h) | ⟨y, rest, hxy, heq⟩)
        · exact .inl h
        · exact .inr ⟨h.1, .inl h.2⟩
        · obtain ⟨rfl, rfl⟩ := List.cons_eq_cons.mp heq
          exact .inr ⟨rfl, .inr ⟨y, rest, hxy, rfl⟩⟩

theorem Passes.append {s t : List ℕ} (h : Passes s t) (rest : List ℕ) : s ++ rest < t := by
  induction s generalizing t with
  | nil => exact absurd h (by simp)
  | cons a s ih =>
    cases t with
    | nil => exact absurd h (by simp)
    | cons b t =>
      rw [List.cons_append, List.cons_lt_cons_iff]
      exact (passes_cons_cons.mp h).imp_right fun ⟨hab, h⟩ => ⟨hab, ih h⟩

theorem append_cons_le {s rest : List ℕ} {x y : ℕ} (h : x ≤ y) : s ++ [x] ≤ s ++ y :: rest := by
  induction s with
  | nil =>
    rw [List.nil_append, List.nil_append, Arrangement.cons_le_cons_iff]
    rcases Nat.lt_or_eq_of_le h with h | rfl
    · exact .inl h
    · exact .inr ⟨rfl, not_lt.mp (List.not_lt_nil rest)⟩
  | cons a s ih =>
    rw [List.cons_append, List.cons_append, Arrangement.cons_le_cons_iff]
    exact .inr ⟨rfl, ih⟩

/-- The beginnings of a list that are shorter than it. -/
def ProperPrefix (s t : List ℕ) : Prop := s <+: t ∧ s ≠ t

theorem properPrefix_concat {s t : List ℕ} {x : ℕ} :
    ProperPrefix s (t ++ [x]) ↔ s <+: t := by
  unfold ProperPrefix
  rw [List.prefix_concat_iff]
  constructor
  · rintro ⟨rfl | h, hne⟩
    · exact absurd rfl hne
    · exact h
  · intro h
    refine ⟨.inr h, fun heq => ?_⟩
    have := h.length_le
    rw [heq, List.length_append, List.length_singleton] at this
    omega

/-- The second list comes after the first, and extends it only if extensions are wanted. -/
def Due (extend : Bool) (s t : List ℕ) : Prop := s < t ∧ (s <+: t → extend = true)

theorem due_false {s t : List ℕ} : Due false s t ↔ Passes s t := by
  simp [Due, Passes]

/-- What it means that a walk which has reached `s` goes on to `t`: of the subsets that are due, `t`
is the first. -/
structure Follows (k : ℕ) (extend : Bool) (s t : List ℕ) : Prop where
  nonempty : t ≠ []
  ascending : Ascending k t
  due : Due extend s t
  least : ∀ u, Ascending k u → Due extend s u → t ≤ u
  /-- Whatever `t` extends was extended before, or is `s`, whose extensions are wanted. -/
  beginnings : ∀ u, ProperPrefix u t → ProperPrefix u s ∨ u = s ∧ extend = true

theorem raise?_eq_none {k : ℕ} {r : List ℕ} (h : raise? k r = none) {u : List ℕ}
    (hu : Ascending k u) : ¬Passes r.reverse u := by
  induction r with
  | nil => simp
  | cons tail rest ih =>
    rw [raise?] at h
    split at h
    · cases h
    · rw [List.reverse_cons, passes_concat]
      rintro (hpasses | ⟨y, later, hy, rfl⟩)
      · exact ih h hpasses
      · have := hu.below y (by simp)
        omega

theorem raise?_follows {k : ℕ} {r t : List ℕ} (h : raise? k r = some t)
    (hr : Ascending k r.reverse) : Follows k false r.reverse t.reverse := by
  induction r with
  | nil => cases h
  | cons tail rest ih =>
    rw [List.reverse_cons] at hr ⊢
    rw [raise?] at h
    split at h
    next hk =>
      obtain rfl := Option.some.inj h
      rw [List.reverse_cons]
      obtain ⟨hrest, -, hlast⟩ := List.pairwise_append.mp hr.increasing
      refine ⟨by simp, ⟨?_, ?_⟩, ?_, fun u hu hdue => ?_, fun u hu => .inl ?_⟩
      · rw [List.pairwise_append]
        refine ⟨hrest, List.pairwise_singleton _ _, fun i hi j hj => ?_⟩
        have := hlast i hi tail (by simp)
        obtain rfl := List.mem_singleton.mp hj
        omega
      · intro i hi
        rcases List.mem_append.mp hi with hi | hi
        · exact hr.of_append.below i hi
        · obtain rfl := List.mem_singleton.mp hi
          exact hk
      · rw [due_false, passes_concat]
        exact .inr ⟨tail + 1, [], Nat.lt_succ_self tail, rfl⟩
      · rw [due_false, passes_concat] at hdue
        rcases hdue with hpasses | ⟨y, later, hy, rfl⟩
        · exact (hpasses.append [tail + 1]).le
        · exact append_cons_le hy
      · exact properPrefix_concat.mpr (properPrefix_concat.mp hu)
    next hk =>
      have hfollows := ih h hr.of_append
      refine ⟨hfollows.nonempty, hfollows.ascending, ?_, fun u hu hdue => ?_, fun u hu => .inl ?_⟩
      · rw [due_false, passes_concat]
        exact .inl (due_false.mp hfollows.due)
      · rw [due_false, passes_concat] at hdue
        rcases hdue with hpasses | ⟨y, later, hy, rfl⟩
        · exact hfollows.least u hu (due_false.mpr hpasses)
        · have := hu.below y (by simp)
          omega
      · rcases hfollows.beginnings u hu with hu | hu
        · exact properPrefix_concat.mpr hu.1
        · exact absurd hu.2 (by simp)

theorem extend_follows {k : ℕ} {s : List ℕ} {x : ℕ} (hs : Ascending k s) (hx : x < k)
    (habove : ∀ i ∈ s, i < x) (hleast : ∀ y rest, Ascending k (s ++ y :: rest) → x ≤ y) :
    Follows k true s (s ++ [x]) := by
  refine ⟨by simp, ⟨?_, ?_⟩, ⟨?_, fun _ => rfl⟩, fun u hu hdue => ?_, fun u hu => ?_⟩
  · rw [List.pairwise_append]
    refine ⟨hs.increasing, List.pairwise_singleton _ _, fun i hi j hj => ?_⟩
    obtain rfl := List.mem_singleton.mp hj
    exact habove i hi
  · intro i hi
    rcases List.mem_append.mp hi with hi | hi
    · exact hs.below i hi
    · obtain rfl := List.mem_singleton.mp hi
      exact hx
  · conv_lhs => rw [← List.append_nil s]
    exact List.append_left_lt (List.nil_lt_cons x [])
  · by_cases hbegins : s <+: u
    · obtain ⟨later, rfl⟩ := hbegins
      cases later with
      | nil => exact absurd hdue.1 (by simp)
      | cons y later => exact append_cons_le (hleast y later hu)
    · exact (Passes.append ⟨hdue.1, hbegins⟩ [x]).le
  · by_cases h : u = s
    · exact .inr ⟨h, rfl⟩
    · exact .inl ⟨properPrefix_concat.mp hu, h⟩

/-- Where nothing extends `s`, nothing changes when extensions are wanted. -/
theorem due_false_of_due {extend : Bool} {s u : List ℕ} (hdue : Due extend s u)
    (hmaximal : extend = true → ∀ y rest, u ≠ s ++ y :: rest) : Due false s u := by
  refine due_false.mpr ⟨hdue.1, fun hbegins => ?_⟩
  obtain ⟨later, rfl⟩ := hbegins
  cases later with
  | nil => exact absurd hdue.1 (by simp)
  | cons y rest => exact hmaximal (hdue.2 (List.prefix_append _ _)) y rest rfl

theorem Follows.of_maximal {k : ℕ} {extend : Bool} {s t : List ℕ} (h : Follows k false s t)
    (hmaximal : extend = true → ∀ y rest, ¬Ascending k (s ++ y :: rest)) :
    Follows k extend s t := by
  refine ⟨h.nonempty, h.ascending, ⟨h.due.1, fun hbegins => ?_⟩, fun u hu hdue => ?_,
    fun u hu => ?_⟩
  · exact absurd (h.due.2 hbegins) (by simp)
  · refine h.least u hu (due_false_of_due hdue ?_)
    rintro hextend y rest rfl
    exact hmaximal hextend y rest hu
  · exact .inl ((h.beginnings u hu).resolve_right fun hu => by simpa using hu.2)

theorem not_ascending_of_last {k tail : ℕ} {rest : List ℕ} (hlast : ¬tail + 1 < k) (y : ℕ)
    (later : List ℕ) : ¬Ascending k ((tail :: rest).reverse ++ y :: later) := by
  intro h
  have hbelow := h.below y (by simp)
  have := (List.pairwise_append.mp h.increasing).2.2 tail (by simp) y (by simp)
  omega

/-- A walk steps to the first subset that is due. -/
theorem successor?_follows {w : SubsetWalk} {extend : Bool} {chosen : List ℕ} (hk : 0 < w.k)
    (hw : Ascending w.k w.current) (hstart : w.current = [] → extend = true)
    (h : w.successor? extend = some chosen) : Follows w.k extend w.current chosen.reverse := by
  unfold current at hw hstart ⊢
  unfold successor? at h
  split at h
  next hnil =>
    obtain rfl := Option.some.inj h
    rw [hnil] at hw hstart ⊢
    rw [hstart rfl]
    exact extend_follows hw hk (by simp) (by simp)
  next tail rest hcons =>
    rw [hcons] at hw ⊢
    split at h
    next hextend =>
      obtain rfl := Option.some.inj h
      rw [List.reverse_cons (a := tail + 1), hextend.1]
      have hincreasing := hw.increasing
      rw [List.reverse_cons, List.pairwise_append] at hincreasing
      refine extend_follows hw hextend.2 (fun i hi => ?_) fun y later hlater => ?_
      · rw [List.reverse_cons, List.mem_append] at hi
        rcases hi with hi | hi
        · have := hincreasing.2.2 i hi tail (by simp)
          omega
        · obtain rfl := List.mem_singleton.mp hi
          omega
      · exact (List.pairwise_append.mp hlater.increasing).2.2 tail (by simp) y (by simp)
    next hextend =>
      exact (raise?_follows h hw).of_maximal fun htrue =>
        not_ascending_of_last fun hlast => hextend ⟨htrue, hlast⟩

theorem successor?_eq_none {w : SubsetWalk} {extend : Bool} (h : w.successor? extend = none)
    {u : List ℕ} (hu : Ascending w.k u) : ¬Due extend w.current u := by
  unfold current
  unfold successor? at h
  split at h
  next => cases h
  next tail rest hcons =>
    rw [hcons]
    split at h
    · cases h
    next hextend =>
      intro hdue
      refine raise?_eq_none h hu (due_false.mp (due_false_of_due hdue ?_))
      rintro htrue y later rfl
      exact not_ascending_of_last (fun hlast => hextend ⟨htrue, hlast⟩) y later hu

/-! ### The walk -/

/-- What holds of a walk before each step. -/
structure Underway (w : SubsetWalk) (extend : Bool) : Prop where
  ascending : Ascending w.k w.current
  wanted : w.current = [] → extend = true
  ended : w.exhausted = true → ∀ u, Ascending w.k u → ¬Due extend w.current u
  room : w.exhausted = false → 0 < w.k

theorem underway_start (k : ℕ) : (start k).Underway true := by
  refine ⟨⟨List.Pairwise.nil, by simp [start, current]⟩, fun _ => rfl, fun hended u hu hdue => ?_,
    fun hopen => by simpa [start, Nat.pos_iff_ne_zero] using hopen⟩
  obtain rfl : k = 0 := by simpa [start] using hended
  cases u with
  | nil => exact absurd hdue.1 (by simp [start, current])
  | cons i u => exact absurd (hu.below i List.mem_cons_self) (Nat.not_lt_zero i)

theorem Underway.not_due {w w' : SubsetWalk} {extend : Bool} (hw : w.Underway extend)
    (h : w.next extend = (none, w')) {u : List ℕ} (hu : Ascending w.k u) :
    ¬Due extend w.current u := by
  unfold next at h
  split at h
  next hended => exact hw.ended hended u hu
  next =>
    split at h
    next => cases h
    next hnone => exact successor?_eq_none hnone hu

theorem exhausted_of_next {w w' : SubsetWalk} {extend : Bool} (h : w.next extend = (none, w')) :
    w'.exhausted = true := by
  unfold next at h
  split at h
  next hended =>
    obtain ⟨-, rfl⟩ := Prod.mk.inj h
    exact hended
  next =>
    split at h
    next => cases h
    next =>
      obtain ⟨-, rfl⟩ := Prod.mk.inj h
      rfl

/-- A walk that goes on steps to the first subset that is due. -/
theorem Underway.follows {w w' : SubsetWalk} {extend : Bool} (hw : w.Underway extend)
    {s : List ℕ} (h : w.next extend = (some s, w')) :
    Follows w.k extend w.current s ∧ w'.k = w.k ∧ w'.current = s ∧
      ∀ wanted, w'.Underway wanted := by
  unfold next at h
  split at h
  · cases h
  next hopen =>
    have hk := hw.room (by simpa using hopen)
    split at h
    next chosen hsome =>
      obtain ⟨hs, rfl⟩ := Prod.mk.inj h
      obtain rfl := Option.some.inj hs
      have hfollows := successor?_follows hk hw.ascending hw.wanted hsome
      refine ⟨hfollows, rfl, rfl,
        fun wanted => ⟨hfollows.ascending, fun hnil => ?_, fun hended => ?_, fun _ => hk⟩⟩
      · exact absurd hnil hfollows.nonempty
      · exact absurd hended hopen
    next => cases h

/-! ### The number of steps -/

/-- The ascending lists of positions below `k`. -/
def subsets (k : ℕ) : Finset (List ℕ) := (Finset.range k).powerset.image fun S => S.sort

theorem mem_subsets {k : ℕ} {s : List ℕ} : s ∈ subsets k ↔ Ascending k s := by
  simp only [subsets, Finset.mem_image, Finset.mem_powerset]
  constructor
  · rintro ⟨S, hS, rfl⟩
    refine ⟨(S.sortedLT_sort).pairwise, fun i hi => ?_⟩
    exact Finset.mem_range.mp (hS ((Finset.mem_sort _).mp hi))
  · intro h
    have hnodup : s.Nodup := h.increasing.imp (fun hlt => hlt.ne)
    refine ⟨s.toFinset, fun i hi => ?_, ?_⟩
    · exact Finset.mem_range.mpr (h.below i (List.mem_toFinset.mp hi))
    · exact (List.toFinset_sort _ hnodup).mpr (h.increasing.imp fun hlt => hlt.le)

/-- The subsets that come after `s`. -/
def remaining (k : ℕ) (s : List ℕ) : Finset (List ℕ) := (subsets k).filter (s < ·)

theorem mem_remaining {k : ℕ} {s t : List ℕ} : t ∈ remaining k s ↔ Ascending k t ∧ s < t := by
  rw [remaining, Finset.mem_filter, mem_subsets]

theorem card_subsets_le_stepBound (k : ℕ) : (subsets k).card ≤ stepBound k :=
  calc (subsets k).card
      ≤ (Finset.range k).powerset.card := Finset.card_image_le
    _ = stepBound k := by rw [Finset.card_powerset, Finset.card_range]; rfl

/-- The empty subset does not come after any. -/
theorem card_remaining_lt_stepBound (k : ℕ) (s : List ℕ) : (remaining k s).card < stepBound k := by
  have hnil : [] ∈ subsets k := mem_subsets.mpr ⟨List.Pairwise.nil, by simp⟩
  refine (Finset.card_lt_card ⟨Finset.filter_subset _ _, fun hsubset => ?_⟩).trans_le
    (card_subsets_le_stepBound k)
  exact List.not_lt_nil s (mem_remaining.mp (hsubset hnil)).2

theorem card_remaining_lt {k : ℕ} {s t : List ℕ} (ht : Ascending k t) (h : s < t) :
    (remaining k t).card < (remaining k s).card := by
  refine Finset.card_lt_card ⟨fun u hu => ?_, fun hsub => ?_⟩
  · obtain ⟨hu, htu⟩ := mem_remaining.mp hu
    exact mem_remaining.mpr ⟨hu, h.trans htu⟩
  · exact lt_irrefl t (mem_remaining.mp (hsub (mem_remaining.mpr ⟨ht, h⟩))).2

end OffshoreFlights.SubsetWalk
