import OffshoreFlights.Number.Binary64
import OffshoreFlights.Proofs.Tour.Arrangement.InPlace
import OffshoreFlights.Proofs.Tour.Checked

/-! The turns of the search for the shortest tour, with the arrangement in place and every access
checked. From turn to turn the arrangement grows in lexicographic order, whatever the distances and
the bound are, so the search comes to its end by itself, and no arrangement is met twice. -/

namespace OffshoreFlights.Tour

variable {α : Type} [Scalar α]

/-- Goes on along an arrangement by index, from position `i` over the positions left. -/
def measureInPlace (distances : DistanceTable α) (wayBack best : α) (s : List ℕ) :
    (left i : ℕ) → (length : α) → Except Fault (Measure α)
  | 0, _, length => do
    let leg ← distances.distanceChecked (← elementAt s (s.length - 1)) 0
    return .closed (length + leg)
  | left + 1, i, length => do
    let leg ← distances.distanceChecked (← elementAt s (i - 1)) (← elementAt s i)
    let length := length + leg
    if best ≤ length + wayBack then
      return .givenUp i
    else
      measureInPlace distances wayBack best s left (i + 1) length

/-- `lastAgreeing` for a position that may lie past the end. -/
def lastAgreeingInPlace (s : List ℕ) (i : ℕ) : Except Fault (List ℕ) :=
  if i + 1 ≤ s.length then .ok (Arrangement.lastAgreeing s i) else .error .outOfRange

/-- `probe` with the arrangement in place. -/
def probeInPlace (distances : DistanceTable α) (wayBack best : α) (s : List ℕ) :
    Except Fault (α × List ℕ) := do
  let first ← elementAt s 0
  let last ← elementAt s (s.length - 1)
  if first < last ∨ s.length = 1 then
    let length ← distances.distanceChecked 0 first
    match ← measureInPlace distances wayBack best s (s.length - 1) 1 length with
    | .givenUp i => return (best, ← lastAgreeingInPlace s i)
    | .closed length => return (if length < best then length else best, s)
  else
    return (best, s)

/-- A turn of the search: the arrangement that it examines and the one from which it steps on. -/
structure Turn where
  examined : List ℕ
  left : List ℕ

/-- The turns of a search from the arrangement `s` on, up to its end, and the length that it ends
with. -/
inductive Turns (distances : DistanceTable α) (wayBack : α) :
    (s : List ℕ) → (best : α) → List Turn → (found : α) → Prop
  | last {s left first : List ℕ} {best found : α} :
    probeInPlace distances wayBack best s = .ok (found, left) →
      Arrangement.nextInPlace left = .ok (false, first) →
        Turns distances wayBack s best [⟨s, left⟩] found
  | step {s left t : List ℕ} {best best' found : α} {turns : List Turn} :
    probeInPlace distances wayBack best s = .ok (best', left) →
      Arrangement.nextInPlace left = .ok (true, t) →
        Turns distances wayBack t best' turns found →
          Turns distances wayBack s best (⟨s, left⟩ :: turns) found

/-! ### In place and by recursion -/

variable {distances : DistanceTable α} {wayBack best : α}

theorem measureInPlace_eq (before : List ℕ) (place : ℕ) (rest : List ℕ) (length : α) :
    measureInPlace distances wayBack best (before ++ place :: rest) rest.length (before.length + 1)
        length =
      measureFrom distances.distanceChecked wayBack best (before.length + 1) length place rest := by
  induction rest generalizing before place length with
  | nil =>
    have hlast : elementAt (before ++ [place]) ((before ++ [place]).length - 1) = .ok place := by
      simp [elementAt]
    rw [List.length_nil, measureInPlace, measureFrom, hlast]
    rfl
  | cons p rest ih =>
    have hplace : elementAt (before ++ place :: p :: rest) before.length = .ok place := by
      simp [elementAt]
    have hp : elementAt (before ++ place :: p :: rest) (before.length + 1) = .ok p := by
      simp [elementAt]
    have hrest := fun length => ih (before ++ [place]) p length
    simp only [List.append_assoc, List.singleton_append, List.length_append,
      List.length_singleton] at hrest
    rw [List.length_cons, measureInPlace, measureFrom, Nat.add_sub_cancel, hplace, hp]
    simp only [bind, Except.bind, hrest]

theorem lt_last_iff_counts (a : ℕ) (rest : List ℕ) {last : ℕ}
    (h : elementAt (a :: rest) ((a :: rest).length - 1) = .ok last) :
    a < last ∨ (a :: rest).length = 1 ↔ counts (a :: rest) = true := by
  cases rest with
  | nil => simp [counts]
  | cons b rest =>
    have hlast : (b :: rest).getLast (List.cons_ne_nil b rest) = last := by
      simpa [elementAt, List.getLast_eq_getElem] using h
    simp [counts, hlast]

theorem givenUp_lt {ask : ℕ → ℕ → Except Fault α} {position j : ℕ} {length : α} {place : ℕ}
    {order : List ℕ}
    (h : measureFrom ask wayBack best position length place order = .ok (.givenUp j)) :
    j < position + order.length := by
  induction order generalizing position length place with
  | nil =>
    rw [measureFrom] at h
    cases hleg : ask place 0 with
    | error fault => simp [hleg, bind, Except.bind] at h
    | ok leg => simp [hleg, bind, Except.bind, pure, Except.pure] at h
  | cons p rest ih =>
    rw [measureFrom] at h
    cases hleg : ask place p with
    | error fault => simp [hleg, bind, Except.bind] at h
    | ok leg =>
      simp only [hleg, bind, Except.bind] at h
      split at h
      · obtain rfl : position = j := by simpa [pure, Except.pure] using h
        simp
      · have := ih h
        rw [List.length_cons]
        omega

/-- A probe in place is a probe: each position that it reads is there. -/
theorem probeInPlace_eq {s : List ℕ} (hs : s ≠ []) :
    probeInPlace distances wayBack best s = probe distances.distanceChecked wayBack best s := by
  match s, hs with
  | a :: rest, _ =>
    have hfirst : elementAt (a :: rest) 0 = .ok a := rfl
    obtain ⟨last, hlast⟩ : ∃ last, elementAt (a :: rest) ((a :: rest).length - 1) = .ok last :=
      ⟨_, Arrangement.elementAt_of_lt (by simp)⟩
    have hmeasure (length : α) :
        measureInPlace distances wayBack best (a :: rest) rest.length 1 length =
          measureFrom distances.distanceChecked wayBack best 1 length a rest :=
      measureInPlace_eq [] a rest length
    rw [probeInPlace, probe, hfirst, hlast]
    simp only [bind, Except.bind, lt_last_iff_counts a rest hlast]
    simp only [List.length_cons, Nat.add_sub_cancel, hmeasure]
    split
    · cases distances.distanceChecked 0 a with
      | error fault => rfl
      | ok first =>
        dsimp only
        cases hgiven : measureFrom distances.distanceChecked wayBack best 1 first a rest with
        | error fault => rfl
        | ok measured =>
          cases measured with
          | closed length => rfl
          | givenUp position =>
            have hposition := givenUp_lt hgiven
            simp only [lastAgreeingInPlace, List.length_cons]
            rw [if_pos (by omega)]
    · rfl

/-! ### What the turns of a search are -/

theorem probeInPlace_ok (wayBack best : α) {s : List ℕ} (hs : s ≠ [])
    (hsize : ∀ i ∈ s, i < distances.size) :
    probeInPlace distances wayBack best s =
      .ok (probe (m := Id) distances.distance wayBack best s).run := by
  obtain ⟨i, hi⟩ := List.exists_mem_of_ne_nil _ hs
  rw [probeInPlace_eq hs]
  exact probe_of_covers distances.covers (Nat.zero_lt_of_lt (hsize i hi)) wayBack best hsize

/-- The best length after a probe is the one before it or that of the tour measured. -/
theorem probe_found (d : ℕ → ℕ → α) (wayBack best : α) (s : List ℕ) :
    (probe (m := Id) d wayBack best s).run.1 = best ∨
      (probe (m := Id) d wayBack best s).run.1 = reckoned d s := by
  match s with
  | [] => exact .inl rfl
  | a :: rest =>
    rw [probe_cons]
    split
    · split
      next => exact .inl rfl
      next length hclosed =>
        have hlength : length = reckoned d (a :: rest) := closed_length hclosed
        dsimp only
        split
        · exact .inr hlength
        · exact .inl rfl
    · exact .inl rfl

/-- What leads from one turn to the next. -/
theorem next_spec {s t : List ℕ} (h : Arrangement.nextInPlace s = .ok (true, t)) :
    t.Perm s ∧ s < t := by
  rw [Arrangement.nextInPlace_eq, Arrangement.next] at h
  have hspec := Arrangement.next?_spec s
  cases hnext : Arrangement.next? s with
  | none => simp [hnext] at h
  | some u =>
    rw [hnext] at h hspec
    obtain rfl : u = t := congrArg Prod.snd (Except.ok.inj h)
    exact ⟨hspec.1, hspec.2.1⟩

/-- The search takes no more turns than there are arrangements left, and then ends by itself. -/
theorem exists_turns (wayBack : α) {s : List ℕ} (hs : s ≠ [])
    (hsize : ∀ i ∈ s, i < distances.size) (best : α) {steps : ℕ}
    (hsteps : (Arrangement.remaining s).card ≤ steps) :
    ∃ turns, turns.length ≤ (Arrangement.remaining s).card ∧
      Turns distances wayBack s best turns
        (search (m := Id) distances.distance wayBack steps s best).run := by
  induction steps generalizing s best with
  | zero =>
    have hmem : s ∈ Arrangement.remaining s :=
      Arrangement.mem_remaining.mpr ⟨List.Perm.refl s, le_refl s⟩
    exact absurd (Finset.card_pos.mpr ⟨s, hmem⟩) (by omega)
  | succ steps ih =>
    have hprobe := probeInPlace_ok wayBack best hs hsize
    have hperm := probe_perm distances.distance wayBack best s
    have hle := le_probe distances.distance wayBack best s
    rw [search_succ]
    generalize (probe (m := Id) distances.distance wayBack best s).run = reached at *
    obtain ⟨best', left⟩ := reached
    have hnext := Arrangement.nextInPlace_eq left
    rw [Arrangement.next] at hnext
    have hspec := Arrangement.next?_spec left
    cases ht : Arrangement.next? left with
    | none =>
      have hmem : s ∈ Arrangement.remaining s :=
        Arrangement.mem_remaining.mpr ⟨List.Perm.refl s, le_refl s⟩
      rw [ht] at hnext
      refine ⟨[⟨s, left⟩], ?_, .last hprobe hnext⟩
      exact Finset.card_pos.mpr ⟨s, hmem⟩
    | some t =>
      rw [ht] at hnext hspec
      obtain ⟨htleft, hlt, -⟩ := hspec
      have hts : t.Perm s := htleft.trans hperm
      have hcard := Arrangement.card_remaining_lt hts (hle.trans_lt hlt)
      have ht' : t ≠ [] := fun h => hs (List.perm_nil.mp (h ▸ hts).symm)
      obtain ⟨turns, hlength, hturns⟩ :=
        ih ht' (fun i hi => hsize i (hts.mem_iff.mp hi)) best' (by omega)
      exact ⟨⟨s, left⟩ :: turns, Nat.succ_le_of_lt (hlength.trans_lt hcard),
        .step hprobe hnext hturns⟩

/-- What holds of the turns from an arrangement on: each arrangement examined comes no later than
the one from which the search steps on, and this comes before all that are examined later. -/
structure Rising (s : List ℕ) (turns : List Turn) : Prop where
  perm : ∀ turn ∈ turns, turn.examined.Perm s
  first_le : ∀ turn ∈ turns, s ≤ turn.examined
  examined_le : ∀ turn ∈ turns, turn.examined ≤ turn.left
  left_lt : turns.Pairwise fun turn later => turn.left < later.examined

theorem Rising.examined_lt {s : List ℕ} {turns : List Turn} (h : Rising s turns) :
    (turns.map Turn.examined).Pairwise (· < ·) := by
  refine List.pairwise_map.mpr (h.left_lt.imp_of_mem fun hturn _ hlt => ?_)
  exact (h.examined_le _ hturn).trans_lt hlt

/-- What a probe in place leaves. -/
theorem left_spec {s left : List ℕ} {best' : α} (hs : s ≠ []) (hsize : ∀ i ∈ s, i < distances.size)
    (hprobe : probeInPlace distances wayBack best s = .ok (best', left)) :
    s ≤ left ∧ left.Perm s ∧ (best' = best ∨ best' = reckoned distances.distance s) := by
  rw [probeInPlace_ok _ _ hs hsize] at hprobe
  have hle := le_probe distances.distance wayBack best s
  have hperm := probe_perm distances.distance wayBack best s
  have hfound := probe_found distances.distance wayBack best s
  rw [Except.ok.inj hprobe] at hle hperm hfound
  exact ⟨hle, hperm, hfound⟩

omit [Scalar α] in
/-- A step leads to another arrangement of the same stops. -/
theorem step_spec {s left t : List ℕ} (hs : s ≠ []) (hsize : ∀ i ∈ s, i < distances.size)
    (hleft : left.Perm s) (hnext : Arrangement.nextInPlace left = .ok (true, t)) :
    left < t ∧ t.Perm s ∧ t ≠ [] ∧ ∀ i ∈ t, i < distances.size := by
  obtain ⟨htleft, hlt⟩ := next_spec hnext
  have hts : t.Perm s := htleft.trans hleft
  exact ⟨hlt, hts, fun h => hs (List.perm_nil.mp (h ▸ hts).symm),
    fun i hi => hsize i (hts.mem_iff.mp hi)⟩

theorem Turns.rising {s : List ℕ} {turns : List Turn} {found : α} (hs : s ≠ [])
    (hsize : ∀ i ∈ s, i < distances.size) (h : Turns distances wayBack s best turns found) :
    Rising s turns := by
  induction h with
  | @last s left first best found hprobe _ =>
    obtain ⟨hle, -, -⟩ := left_spec hs hsize hprobe
    exact ⟨by simp, by simp, by simpa using hle, List.pairwise_singleton _ _⟩
  | @step s left t best best' found turns hprobe hnext _ ih =>
    obtain ⟨hle, hperm, -⟩ := left_spec hs hsize hprobe
    obtain ⟨hlt, hts, ht, htsize⟩ := step_spec hs hsize hperm hnext
    obtain ⟨hperms, hfirst, hexamined, hleft⟩ := ih ht htsize
    refine ⟨?_, ?_, ?_, ?_⟩
    · exact List.forall_mem_cons.mpr
        ⟨List.Perm.refl s, fun turn hturn => (hperms turn hturn).trans hts⟩
    · exact List.forall_mem_cons.mpr
        ⟨le_refl s, fun turn hturn => (hle.trans hlt.le).trans (hfirst turn hturn)⟩
    · exact List.forall_mem_cons.mpr ⟨hle, hexamined⟩
    · exact List.pairwise_cons.mpr ⟨fun turn hturn => hlt.trans_le (hfirst turn hturn), hleft⟩

/-- A search ends with the bound or with the length of a tour that it examined. -/
theorem Turns.found_cases {s : List ℕ} {turns : List Turn} {found : α} (hs : s ≠ [])
    (hsize : ∀ i ∈ s, i < distances.size) (h : Turns distances wayBack s best turns found) :
    found = best ∨ ∃ turn ∈ turns, found = reckoned distances.distance turn.examined := by
  induction h with
  | @last s left first best found hprobe _ =>
    obtain ⟨-, -, hfound⟩ := left_spec hs hsize hprobe
    exact hfound.imp id fun hfound => ⟨_, List.mem_singleton_self _, hfound⟩
  | @step s left t best best' found turns hprobe hnext _ ih =>
    obtain ⟨-, hperm, hfound⟩ := left_spec hs hsize hprobe
    obtain ⟨-, -, ht, htsize⟩ := step_spec hs hsize hperm hnext
    rcases ih ht htsize with rfl | ⟨turn, hturn, hlater⟩
    · exact hfound.imp id fun hfound => ⟨_, List.mem_cons_self, hfound⟩
    · exact .inr ⟨turn, List.mem_cons_of_mem _ hturn, hlater⟩

/-- The course of a search for the shortest tour through some stops, from the arrangement in which
they ascend to its end. -/
structure Course (distances : DistanceTable α) (stops : List ℕ) (bound wayBack : α)
    (turns : List Turn) (found : α) : Prop where
  nearest : nearest? distances.distanceChecked 0 stops.mergeSort = .ok (some wayBack)
  runs : Turns distances wayBack stops.mergeSort bound turns found
  finds : shortest distances.distanceChecked stops bound = .ok found
  perm : ∀ turn ∈ turns, turn.examined.Perm stops
  examined_lt : (turns.map Turn.examined).Pairwise (· < ·)
  /-- The arrangements that are passed over, if any, come after the one examined. -/
  examined_le : ∀ turn ∈ turns, turn.examined ≤ turn.left
  left_lt : turns.Pairwise fun turn later => turn.left < later.examined
  length_le : turns.length ≤ stops.length.factorial
  found_cases : found = bound ∨ ∃ turn ∈ turns, found = reckoned distances.distance turn.examined

/-- Whatever the distances and the bound are, the search for the shortest tour through some stops
meets no index out of range. It examines arrangements in lexicographic order, and ends by itself
after no more turns than there are arrangements. -/
theorem exists_course (distances : DistanceTable α) {stops : List ℕ} (hstops : stops ≠ [])
    (hsize : ∀ i ∈ stops, i < distances.size) (bound : α) :
    ∃ wayBack turns found, Course distances stops bound wayBack turns found := by
  have hperm : stops.mergeSort.Perm stops := List.mergeSort_perm _ _
  have hsorted : stops.mergeSort ≠ [] := fun h => hstops (List.perm_nil.mp (h ▸ hperm).symm)
  have hsize' : ∀ i ∈ stops.mergeSort, i < distances.size :=
    fun i hi => hsize i (hperm.mem_iff.mp hi)
  obtain ⟨i, hi⟩ := List.exists_mem_of_ne_nil _ hstops
  obtain ⟨wayBack, hwayBack⟩ :
      ∃ wayBack, Scalar.least? (stops.mergeSort.map (distances.distance 0)) = some wayBack := by
    obtain ⟨a, rest, hcons⟩ := List.exists_cons_of_ne_nil hsorted
    rw [hcons]
    exact ⟨_, rfl⟩
  have hdepot : 0 ∈ {i | i < distances.size} := Nat.zero_lt_of_lt (hsize i hi)
  have hnearest := nearest?_of_covers hdepot distances.covers hsize'
  rw [nearest?_run, hwayBack] at hnearest
  obtain ⟨turns, hlength, hturns⟩ := exists_turns wayBack hsorted hsize' bound
    (Arrangement.card_remaining_le_count stops.mergeSort)
  have hrising := hturns.rising hsorted hsize'
  refine ⟨wayBack, turns, _, hnearest, hturns, ?_, fun turn hturn => ?_, hrising.examined_lt,
    hrising.examined_le, hrising.left_lt, ?_, hturns.found_cases hsorted hsize'⟩
  · rw [distances.shortest_eq hstops hsize bound, shortest_eq_search _ hstops, hwayBack]
    rfl
  · exact (hrising.perm turn hturn).trans hperm
  · have hcount := Arrangement.card_remaining_le_count stops.mergeSort
    rw [Arrangement.count_eq_factorial, hperm.length_eq] at hcount
    exact hlength.trans hcount

/-- Distances that are negative, infinite, undefined or different in the two directions. -/
def unruly : DistanceTable Float := ⟨3, #[0, -3, 2, 0 / 0, 0, 1 / 0, 5, -1, 0], rfl⟩

theorem exists_course_unruly :
    [2, 1, 2] ≠ [] ∧ (∀ i ∈ [2, 1, 2], i < unruly.size) ∧
      ∃ wayBack turns found, Course unruly [2, 1, 2] 20 wayBack turns found :=
  ⟨by decide, by decide, exists_course unruly (by decide) (by decide) 20⟩

end OffshoreFlights.Tour
