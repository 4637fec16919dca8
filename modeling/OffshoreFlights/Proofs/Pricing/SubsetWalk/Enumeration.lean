import OffshoreFlights.Proofs.Pricing.SubsetWalk.InPlace

/-! What a pruned walk reaches. A refusal keeps the extensions of one subset out and nothing else,
so the walk lists, in lexicographic order, the subsets that extend nothing that was refused. -/

namespace OffshoreFlights.SubsetWalk

variable {k : ℕ} {wanted : List ℕ → Bool} {s t : List ℕ} {w w' : SubsetWalk} {extend : Bool}

/-- Extensions are wanted of everything that `s` extends, the empty subset apart. -/
def Admitted (wanted : List ℕ → Bool) (s : List ℕ) : Prop :=
  ∀ u ∈ s.inits, u ≠ [] → u ≠ s → wanted u = true

instance (wanted : List ℕ → Bool) (s : List ℕ) : Decidable (Admitted wanted s) :=
  inferInstanceAs (Decidable (∀ u ∈ s.inits, u ≠ [] → u ≠ s → wanted u = true))

theorem admitted_iff :
    Admitted wanted s ↔ ∀ u, u ≠ [] → ProperPrefix u s → wanted u = true := by
  simp only [Admitted, List.mem_inits, ProperPrefix]
  exact ⟨fun h u hne hu => h u hu.1 hne hu.2, fun h u hu hne hs => h u hne ⟨hu, hs⟩⟩

theorem nil_lt_iff : [] < s ↔ s ≠ [] := by
  cases s with
  | nil => simp
  | cons i s => simp

/-- The admitted subsets that come after `s`, in lexicographic order. -/
def ahead (k : ℕ) (wanted : List ℕ → Bool) (s : List ℕ) : List (List ℕ) :=
  ((remaining k s).filter (Admitted wanted)).sort (· ≤ ·)

theorem mem_ahead : t ∈ ahead k wanted s ↔ Ascending k t ∧ s < t ∧ Admitted wanted t := by
  rw [ahead, Finset.mem_sort, Finset.mem_filter, mem_remaining, and_assoc]

theorem ahead_pairwise (k : ℕ) (wanted : List ℕ → Bool) (s : List ℕ) :
    (ahead k wanted s).Pairwise (· < ·) :=
  (Finset.sortedLT_sort _).pairwise

theorem ahead_nodup (k : ℕ) (wanted : List ℕ → Bool) (s : List ℕ) : (ahead k wanted s).Nodup :=
  (ahead_pairwise k wanted s).imp fun hlt => hlt.ne

theorem length_ahead_le (k : ℕ) (wanted : List ℕ → Bool) (s : List ℕ) :
    (ahead k wanted s).length ≤ (remaining k s).card := by
  rw [ahead, Finset.length_sort]
  exact Finset.card_filter_le _ _

theorem ahead_eq_cons (ht : t ∈ ahead k wanted s) (hleast : ∀ u ∈ ahead k wanted s, t ≤ u) :
    ahead k wanted s = t :: ahead k wanted t := by
  obtain ⟨hascending, hlt, hadmitted⟩ := mem_ahead.mp ht
  have hsorted : (t :: ahead k wanted t).Pairwise (· < ·) :=
    List.pairwise_cons.mpr ⟨fun u hu => (mem_ahead.mp hu).2.1, ahead_pairwise k wanted t⟩
  have hperm : (ahead k wanted s).Perm (t :: ahead k wanted t) := by
    rw [List.perm_ext_iff_of_nodup (ahead_nodup k wanted s) (hsorted.imp fun hlt => hlt.ne)]
    intro u
    rw [List.mem_cons]
    constructor
    · intro hu
      obtain rfl | htu := (hleast u hu).eq_or_lt
      · exact .inl rfl
      · obtain ⟨hascending, -, hadmitted⟩ := mem_ahead.mp hu
        exact .inr (mem_ahead.mpr ⟨hascending, htu, hadmitted⟩)
    · rintro (rfl | hu)
      · exact ht
      · obtain ⟨hascending, htu, hadmitted⟩ := mem_ahead.mp hu
        exact mem_ahead.mpr ⟨hascending, hlt.trans htu, hadmitted⟩
  exact hperm.eq_of_pairwise (fun a b _ _ hab hba => absurd hba (asymm hab))
    (ahead_pairwise k wanted s) hsorted

/-! ### A step -/

/-- A walk on its way in which extensions are wanted of the subsets that `wanted` tells. -/
structure Steered (wanted : List ℕ → Bool) (w : SubsetWalk) (extend : Bool) : Prop where
  underway : w.Underway extend
  admitted : Admitted wanted w.current
  extend_eq : w.current ≠ [] → extend = wanted w.current

theorem steered_start (wanted : List ℕ → Bool) (k : ℕ) : (start k).Steered wanted true where
  underway := underway_start k
  admitted := by simp [start, current, Admitted]
  extend_eq := fun h => absurd rfl h

/-- Nothing that is admitted is passed over. -/
theorem Steered.due (hw : w.Steered wanted extend) (ht : t ∈ ahead w.k wanted w.current) :
    Due extend w.current t := by
  obtain ⟨-, hlt, hadmitted⟩ := mem_ahead.mp ht
  refine ⟨hlt, fun hbegins => ?_⟩
  by_cases hnil : w.current = []
  · exact hw.underway.wanted hnil
  · rw [hw.extend_eq hnil]
    exact admitted_iff.mp hadmitted _ hnil ⟨hbegins, hlt.ne⟩

/-- What a walk reaches next is the first subset ahead of it. -/
theorem Steered.next_some (hw : w.Steered wanted extend) (h : w.next extend = (some s, w')) :
    ahead w.k wanted w.current = s :: ahead w'.k wanted w'.current ∧ w'.k = w.k ∧
      w'.current = s ∧ w'.Steered wanted (wanted s) := by
  obtain ⟨hfollows, hk, hcurrent, hunderway⟩ := hw.underway.follows h
  have hadmitted : Admitted wanted s := by
    refine admitted_iff.mpr fun u hne hu => ?_
    rcases hfollows.beginnings u hu with hu | ⟨rfl, hextend⟩
    · exact admitted_iff.mp hw.admitted u hne hu
    · rw [← hw.extend_eq hne, hextend]
  refine ⟨?_, hk, hcurrent, hunderway _, hcurrent ▸ hadmitted, fun _ => by rw [hcurrent]⟩
  rw [hk, hcurrent]
  apply ahead_eq_cons
  · exact mem_ahead.mpr ⟨hfollows.ascending, hfollows.due.1, hadmitted⟩
  · intro u hu
    exact hfollows.least u (mem_ahead.mp hu).1 (hw.due hu)

theorem Steered.next_none (hw : w.Steered wanted extend) (h : w.next extend = (none, w')) :
    ahead w.k wanted w.current = [] :=
  List.eq_nil_iff_forall_not_mem.mpr fun _ hu =>
    hw.underway.not_due h (mem_ahead.mp hu).1 (hw.due hu)

/-! ### The steps of a walk -/

theorem current_of_exhausted (hw : w.exhausted = true → w.current = []) (extend : Bool)
    (h : (w.next extend).2.exhausted = true) : (w.next extend).2.current = [] := by
  unfold next at h ⊢
  split at h
  next hended => rw [if_pos hended]; exact hw hended
  next hended =>
    rw [if_neg hended]
    split at h
    next => exact absurd h hended
    next => rfl

/-- Before the first step it makes no difference whether extensions are wanted. -/
theorem next_start (k : ℕ) (extend : Bool) : (start k).next extend = (start k).next true := rfl

/-- The walk after `n` steps, `flags n` being what the step after them is told. -/
def after (k : ℕ) (flags : ℕ → Bool) : ℕ → SubsetWalk
  | 0 => start k
  | n + 1 => ((after k flags n).next (flags n)).2

/-- What the step after `n` steps answers. -/
def answer (k : ℕ) (flags : ℕ → Bool) (n : ℕ) : Option (List ℕ) :=
  ((after k flags n).next (flags n)).1

/-- The step after the one that answered `s` was told that no extensions of `s` are wanted. -/
def Refused (k : ℕ) (flags : ℕ → Bool) (s : List ℕ) : Prop :=
  ∃ n, answer k flags n = some s ∧ flags (n + 1) = false

variable {flags : ℕ → Bool} {n : ℕ}

theorem after_k (k : ℕ) (flags : ℕ → Bool) (n : ℕ) : (after k flags n).k = k := by
  induction n with
  | zero => rfl
  | succ n ih =>
    rw [after, next]
    split
    · exact ih
    · split
      · exact ih
      · exact ih

theorem after_current_of_exhausted (h : (after k flags n).exhausted = true) :
    (after k flags n).current = [] := by
  induction n with
  | zero => rfl
  | succ n ih => exact current_of_exhausted ih (flags n) h

theorem next_of_answer (h : answer k flags n = some s) :
    (after k flags n).next (flags n) = (some s, after k flags (n + 1)) :=
  Prod.ext h rfl

theorem next_of_answer_none (h : answer k flags n = none) :
    (after k flags n).next (flags n) = (none, after k flags (n + 1)) :=
  Prod.ext h rfl

/-- Before the first step it makes no difference what the walk is told. -/
def told (flags : ℕ → Bool) : ℕ → Bool
  | 0 => true
  | n + 1 => flags (n + 1)

theorem next_told (k : ℕ) (flags : ℕ → Bool) (n : ℕ) :
    (after k flags n).next (flags n) = (after k flags n).next (told flags n) := by
  cases n with
  | zero => exact next_start k (flags 0)
  | succ n => rfl

/-- A walk is underway until it has ended. -/
theorem after_underway (k : ℕ) (flags : ℕ → Bool) (n : ℕ) :
    (after k flags n).Underway (told flags n) ∨ (after k flags n).exhausted = true := by
  induction n with
  | zero => exact .inl (underway_start k)
  | succ n ih =>
    rcases hanswer : answer k flags n with _ | s
    · exact .inr (exhausted_of_next (next_of_answer_none hanswer))
    · rcases ih with hunderway | hended
      · have hnext := next_of_answer hanswer
        rw [next_told] at hnext
        exact .inl ((hunderway.follows hnext).2.2.2 _)
      · rw [answer, next, if_pos hended] at hanswer
        cases hanswer

theorem after_ascending (k : ℕ) (flags : ℕ → Bool) (n : ℕ) :
    Ascending (after k flags n).k (after k flags n).current := by
  rcases after_underway k flags n with hunderway | hended
  · exact hunderway.ascending
  · rw [after_current_of_exhausted hended]
    exact ⟨List.Pairwise.nil, by simp⟩

theorem underway_of_answer (h : answer k flags n = some s) :
    (after k flags n).Underway (told flags n) := by
  refine (after_underway k flags n).resolve_right fun hended => ?_
  rw [answer, next, if_pos hended] at h
  cases h

theorem answer_follows (h : answer k flags n = some s) :
    Follows k (told flags n) (after k flags n).current s ∧ (after k flags (n + 1)).current = s := by
  have hnext := next_of_answer h
  rw [next_told] at hnext
  obtain ⟨hfollows, -, hcurrent, -⟩ := (underway_of_answer h).follows hnext
  rw [after_k] at hfollows
  exact ⟨hfollows, hcurrent⟩

theorem answer_lt {m : ℕ} (hmn : m < n) (hm : answer k flags m = some s)
    (hn : answer k flags n = some t) : s < t := by
  induction n generalizing t with
  | zero => exact absurd hmn (Nat.not_lt_zero m)
  | succ n ih =>
    have hlt := (answer_follows hn).1.due.1
    rcases hanswer : answer k flags n with _ | u
    · have hended := exhausted_of_next (next_of_answer_none hanswer)
      rw [answer, next, if_pos hended] at hn
      cases hn
    · rw [(answer_follows hanswer).2] at hlt
      rcases Nat.lt_succ_iff_lt_or_eq.mp hmn with hmn | rfl
      · exact (ih hmn hanswer).trans hlt
      · obtain rfl := Option.some.inj (hm.symm.trans hanswer)
        exact hlt

/-- As no subset is reached twice, the flag of the step after it tells whether it is refused. -/
theorem refused_iff (h : answer k flags n = some s) :
    Refused k flags s ↔ flags (n + 1) = false := by
  constructor
  · rintro ⟨m, hm, hflag⟩
    obtain hlt | rfl | hlt := Nat.lt_trichotomy m n
    · exact absurd (answer_lt hlt hm h) (lt_irrefl s)
    · exact hflag
    · exact absurd (answer_lt hlt h hm) (lt_irrefl s)
  · exact fun hflag => ⟨n, h, hflag⟩

/-- Steps take the subsets ahead of the start one after another. -/
theorem after_steered (hwanted : ∀ n s, answer k flags n = some s → flags (n + 1) = wanted s)
    (n : ℕ) :
    ((after k flags n).Steered wanted (told flags n) ∧
        ahead k wanted (after k flags n).current = (ahead k wanted []).drop n) ∨
      (after k flags n).exhausted = true ∧ (ahead k wanted []).length < n := by
  induction n with
  | zero => exact .inl ⟨steered_start wanted k, rfl⟩
  | succ n ih =>
    rcases ih with ⟨hsteered, hahead⟩ | ⟨hended, hlength⟩
    · rcases hanswer : answer k flags n with _ | s
      · have hnext := next_of_answer_none hanswer
        have hnil := hsteered.next_none (next_told k flags n ▸ hnext)
        rw [after_k, hahead, List.drop_eq_nil_iff] at hnil
        exact .inr ⟨exhausted_of_next hnext, Nat.lt_succ_of_le hnil⟩
      · obtain ⟨hcons, -, -, hnext⟩ :=
          hsteered.next_some (next_told k flags n ▸ next_of_answer hanswer)
        rw [after_k, after_k, hahead] at hcons
        rw [← hwanted n s hanswer] at hnext
        refine .inl ⟨hnext, ?_⟩
        rw [← List.drop_drop, hcons, List.drop_one, List.tail_cons]
    · refine .inr ⟨?_, Nat.lt_succ_of_lt hlength⟩
      rw [after, next, if_pos hended]
      exact hended

theorem answer_eq_getElem? (hwanted : ∀ n s, answer k flags n = some s → flags (n + 1) = wanted s)
    (n : ℕ) : answer k flags n = (ahead k wanted [])[n]? := by
  rcases after_steered hwanted n with ⟨hsteered, hahead⟩ | ⟨hended, hlength⟩
  · rw [← List.head?_drop, ← hahead]
    rcases hanswer : answer k flags n with _ | s
    · have hnil := hsteered.next_none (next_told k flags n ▸ next_of_answer_none hanswer)
      rw [after_k] at hnil
      rw [hnil, List.head?_nil]
    · have hcons :=
        (hsteered.next_some (next_told k flags n ▸ next_of_answer hanswer)).1
      rw [after_k] at hcons
      rw [hcons, List.head?_cons]
  · rw [answer, next, if_pos hended, List.getElem?_eq_none hlength.le]

/-! ### All subsets -/

theorem card_subsets (k : ℕ) : (subsets k).card = 2 ^ k := by
  have hinjective : Function.Injective fun S : Finset ℕ => S.sort := fun S T h => by
    rw [← Finset.sort_toFinset S (· ≤ ·), ← Finset.sort_toFinset T (· ≤ ·)]
    exact congrArg List.toFinset h
  rw [subsets, Finset.card_image_of_injective _ hinjective, Finset.card_powerset,
    Finset.card_range]

theorem length_ahead_of_wanted (h : ∀ u, wanted u = true) :
    (ahead k wanted []).length = 2 ^ k - 1 := by
  have hall : (remaining k []).filter (fun s => Admitted wanted s) = (subsets k).erase [] := by
    ext u
    rw [Finset.mem_filter, mem_remaining, Finset.mem_erase, mem_subsets, nil_lt_iff]
    exact ⟨fun ⟨⟨hu, hne⟩, _⟩ => ⟨hne, hu⟩, fun ⟨hne, hu⟩ => ⟨⟨hu, hne⟩, fun v _ _ _ => h v⟩⟩
  have hnil : [] ∈ subsets k := mem_subsets.mpr ⟨List.Pairwise.nil, by simp⟩
  rw [ahead, Finset.length_sort, hall, Finset.card_erase_of_mem hnil, card_subsets]

/-- A pruned walk is exact. Whatever the calls are told, and whatever that depends on, they answer
the nonempty subsets that extend nothing refused, in lexicographic order and each once. Once these
have run out every call answers none, and nothing is reached. If nothing is refused all the subsets
appear. In place, no index and no difference is ever out of range. -/
theorem walk_exact (k : ℕ) (flags : ℕ → Bool) :
    ∃ reached : List (List ℕ),
      reached.Pairwise (· < ·) ∧
      (∀ n, answer k flags n = reached[n]?) ∧
      (∀ s, s ∈ reached ↔
        s ≠ [] ∧ Ascending k s ∧ ∀ u, u ≠ [] → ProperPrefix u s → ¬Refused k flags u) ∧
      (∀ n, reached.length < n → (after k flags n).current = []) ∧
      ((∀ n, flags n = true) →
        reached.length = 2 ^ k - 1 ∧ ∀ s, s ≠ [] → Ascending k s → s ∈ reached) ∧
      ∀ n, (after k flags n).inPlace.next (flags n) =
        .ok (answer k flags n, (after k flags (n + 1)).inPlace) := by
  classical
  let wanted : List ℕ → Bool := fun s => decide (¬Refused k flags s)
  have hwanted : ∀ n s, answer k flags n = some s → flags (n + 1) = wanted s := by
    intro n s hanswer
    rw [Bool.eq_iff_iff, decide_eq_true_iff, refused_iff hanswer, Bool.not_eq_false]
  have hmem : ∀ s, s ∈ ahead k wanted [] ↔
      s ≠ [] ∧ Ascending k s ∧ ∀ u, u ≠ [] → ProperPrefix u s → ¬Refused k flags u := by
    intro s
    rw [mem_ahead, nil_lt_iff, admitted_iff]
    simp only [wanted, decide_eq_true_iff]
    exact and_left_comm
  refine ⟨ahead k wanted [], ahead_pairwise k wanted [], answer_eq_getElem? hwanted, hmem,
    fun n hn => ?_, fun hflags => ?_, fun n => ?_⟩
  · cases n with
    | zero => exact absurd hn (Nat.not_lt_zero _)
    | succ n =>
      have hnone : answer k flags n = none := by
        rw [answer_eq_getElem? hwanted, List.getElem?_eq_none (Nat.le_of_lt_succ hn)]
      exact after_current_of_exhausted (exhausted_of_next (next_of_answer_none hnone))
  · have hnever : ∀ u, ¬Refused k flags u := fun u ⟨n, _, hflag⟩ => by
      rw [hflags] at hflag
      cases hflag
    refine ⟨length_ahead_of_wanted fun u => decide_eq_true (hnever u), fun s hne hs => ?_⟩
    exact (hmem s).mpr ⟨hne, hs, fun u _ _ => hnever u⟩
  · exact next_inPlace (after_ascending k flags n) (flags n)

end OffshoreFlights.SubsetWalk
