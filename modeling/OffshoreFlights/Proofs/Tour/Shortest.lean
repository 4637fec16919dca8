import OffshoreFlights.Proofs.Number.Lengths
import OffshoreFlights.Proofs.Tour.Arrangement
import OffshoreFlights.Proofs.Tour.Optimum
import OffshoreFlights.Tour.Shortest

/-! What the search for the shortest tour finds, with sums that may be rounded. A way is given up
only when no tour that begins with it is shorter than the best one, and a step from there passes
over no other arrangements. So the bound has no part in what is found: it is the length of the
first of the shortest arrangements that count, unless that is not below the bound. In exact
arithmetic and with symmetric distances every tour or its reverse counts, and the length is that of
the shortest tour. -/

namespace OffshoreFlights.Tour

/-! ### The arrangements that a search visits -/

section Visits

variable {α : Type} [Scalar α]

theorem measureFrom_cons (d : ℕ → ℕ → α) (wayBack best : α) (position : ℕ) (length : α)
    (place p : ℕ) (rest : List ℕ) :
    (measureFrom (m := Id) d wayBack best position length place (p :: rest)).run =
      if best ≤ length + d place p + wayBack then .givenUp position
      else (measureFrom (m := Id) d wayBack best (position + 1) (length + d place p) p rest).run :=
  rfl

theorem position_of_givenUp {d : ℕ → ℕ → α} {wayBack best : α} {position j : ℕ} {length : α}
    {place : ℕ} {order : List ℕ}
    (h : (measureFrom (m := Id) d wayBack best position length place order).run = .givenUp j) :
    ∃ i < order.length, j = position + i := by
  induction order generalizing position length place with
  | nil => exact absurd h (by rintro ⟨⟩)
  | cons p rest ih =>
    rw [measureFrom_cons] at h
    split at h
    · cases h
      exact ⟨0, by simp, rfl⟩
    · obtain ⟨i, hi, rfl⟩ := ih h
      exact ⟨i + 1, by simp; omega, by omega⟩

theorem probe_cons (d : ℕ → ℕ → α) (wayBack best : α) (a : ℕ) (rest : List ℕ) :
    (probe (m := Id) d wayBack best (a :: rest)).run =
      if counts (a :: rest) then
        match (measureFrom (m := Id) d wayBack best 1 (d 0 a) a rest).run with
        | .givenUp position => (best, Arrangement.lastAgreeing (a :: rest) position)
        | .closed length => (if length < best then length else best, a :: rest)
      else (best, a :: rest) := by
  by_cases h : counts (a :: rest) = true
  · simp only [probe, h, if_true, Id.run_bind]
    rw [show Id.run (d 0 a) = d 0 a from rfl]
    cases (measureFrom (m := Id) d wayBack best 1 (d 0 a) a rest).run <;> rfl
  · simp only [probe, h]
    rfl

theorem search_succ (d : ℕ → ℕ → α) (wayBack best : α) (steps : ℕ) (s : List ℕ) :
    (search (m := Id) d wayBack (steps + 1) s best).run =
      match Arrangement.next? (probe (m := Id) d wayBack best s).run.2 with
      | some t => (search (m := Id) d wayBack steps t (probe (m := Id) d wayBack best s).run.1).run
      | none => (probe (m := Id) d wayBack best s).run.1 := by
  simp only [search, Id.run_bind, Arrangement.next]
  cases Arrangement.next? (probe (m := Id) d wayBack best s).run.2 <;> rfl

/-- A probe stays at an arrangement, or goes on to the last one that begins in the same way. -/
theorem probe_arrangement (d : ℕ → ℕ → α) (wayBack best : α) (s : List ℕ) :
    (probe (m := Id) d wayBack best s).run.2 = s ∨
      ∃ i < s.length, (probe (m := Id) d wayBack best s).run.2 = Arrangement.lastAgreeing s i := by
  match s with
  | [] => exact .inl rfl
  | a :: rest =>
    rw [probe_cons]
    split
    · split
      next position hgiven =>
        obtain ⟨i, hi, rfl⟩ := position_of_givenUp hgiven
        exact .inr ⟨1 + i, by simp; omega, rfl⟩
      next => exact .inl rfl
    · exact .inl rfl

theorem probe_perm (d : ℕ → ℕ → α) (wayBack best : α) (s : List ℕ) :
    (probe (m := Id) d wayBack best s).run.2.Perm s := by
  rcases probe_arrangement d wayBack best s with h | ⟨i, -, h⟩ <;> rw [h]
  exact Arrangement.lastAgreeing_perm s i

theorem le_probe (d : ℕ → ℕ → α) (wayBack best : α) (s : List ℕ) :
    s ≤ (probe (m := Id) d wayBack best s).run.2 := by
  rcases probe_arrangement d wayBack best s with h | ⟨i, -, h⟩ <;> rw [h]
  exact Arrangement.le_lastAgreeing (List.Perm.refl s) rfl

theorem nearest?_run (d : ℕ → ℕ → α) (place : ℕ) (others : List ℕ) :
    (nearest? (m := Id) d place others).run = Scalar.least? (others.map (d place)) := by
  have hmap : (others.mapM (m := Id) (d place)).run = others.map (d place) := by
    induction others with
    | nil => rfl
    | cons i others ih =>
      rw [List.mapM_cons, List.map_cons, ← ih]
      rfl
  simp only [nearest?, Id.run_bind, hmap]
  rfl

/-- The search begins with the stops in ascending order. -/
theorem shortest_eq_search (d : ℕ → ℕ → α) {stops : List ℕ} (hstops : stops ≠ []) (bound : α) :
    (shortest (m := Id) d stops bound).run =
      (search (m := Id) d ((Scalar.least? (stops.mergeSort.map (d 0))).getD 0)
        (Arrangement.count stops.mergeSort.length) stops.mergeSort bound).run := by
  simp only [shortest, if_neg hstops, Id.run_bind, nearest?_run]

/-- The order in which the stops are given makes no difference. -/
theorem shortest_perm {m : Type → Type} [Monad m] (distance : ℕ → ℕ → m α) {s t : List ℕ}
    (h : s.Perm t) (bound : α) : shortest distance s bound = shortest distance t bound := by
  have hsorted : ∀ u : List ℕ, u.mergeSort.Pairwise (· ≤ ·) :=
    fun u => List.pairwise_mergeSort' (fun x y => x ≤ y) u
  have hmerge : s.mergeSort = t.mergeSort :=
    ((List.mergeSort_perm s _).trans (h.trans (List.mergeSort_perm t _).symm)).eq_of_pairwise
      (fun _ _ _ _ => Nat.le_antisymm) (hsorted s) (hsorted t)
  have hnil : s = [] ↔ t = [] := ⟨fun hs => (hs ▸ h).nil_eq.symm, fun ht => (ht ▸ h).eq_nil⟩
  simp only [shortest, hmerge, hnil]

theorem ne_nil_of_counts {s : List ℕ} (h : counts s = true) : s ≠ [] := by
  rintro rfl
  cases h

theorem counts_concat (a b : ℕ) (middle : List ℕ) :
    counts (a :: (middle ++ [b])) = decide (a < b) := by
  cases middle with
  | nil => rfl
  | cons c middle => simp [counts]

/-- Of an arrangement of different locations and its reverse one counts. -/
theorem counts_or_counts_reverse {s : List ℕ} (hs : s ≠ []) (hnodup : s.Nodup) :
    counts s = true ∨ counts s.reverse = true := by
  match s, hnodup with
  | [a], _ => exact .inl rfl
  | a :: c :: rest, hnodup =>
    obtain ⟨middle, b, hrest⟩ : ∃ middle b, c :: rest = middle ++ [b] :=
      ⟨_, _, (List.dropLast_append_getLast (List.cons_ne_nil c rest)).symm⟩
    rw [hrest] at hnodup ⊢
    have hab : a ≠ b := fun h => (List.nodup_cons.mp hnodup).1 (by simp [h])
    rw [List.reverse_cons, List.reverse_append, List.reverse_singleton, List.append_assoc,
      List.singleton_append, counts_concat, counts_concat, decide_eq_true_eq,
      decide_eq_true_eq]
    omega

end Visits

/-! ### What the search finds -/

section Found

variable {α : Type} [Scalar α] {d : ℕ → ℕ → α} {wayBack best : α}

/-- The length of a closed tour as the search reckons it, leg by leg from the first one on. -/
def reckoned (d : ℕ → ℕ → α) : (order : List ℕ) → α
  | [] => 0
  | a :: rest => (lengthFrom (m := Id) d (d 0 a) a rest).run

theorem closed_length {position : ℕ} {length closed : α} {place : ℕ} {order : List ℕ}
    (h : (measureFrom (m := Id) d wayBack best position length place order).run = .closed closed) :
    closed = (lengthFrom (m := Id) d length place order).run := by
  induction order generalizing position length place with
  | nil => cases h; rfl
  | cons p rest ih =>
    rw [measureFrom_cons] at h
    split at h
    · cases h
    · exact ih h

/-- A search that cannot find anything shorter gives back what it had. -/
theorem search_of_not_lt {s : List ℕ}
    (h : ∀ t : List ℕ, t.Perm s → counts t = true → ¬reckoned d t < best) (steps : ℕ) :
    (search (m := Id) d wayBack steps s best).run = best := by
  induction steps generalizing s with
  | zero => rfl
  | succ steps ih =>
    have hbest : (probe (m := Id) d wayBack best s).run.1 = best := by
      match s with
      | [] => rfl
      | a :: rest =>
        rw [probe_cons]
        split
        next hcounts =>
          split
          next => rfl
          next length hclosed =>
            rw [closed_length hclosed]
            exact if_neg (h _ (List.Perm.refl _) hcounts)
        next => rfl
    have hperm := probe_perm d wayBack best s
    have hnext := Arrangement.next?_spec (probe (m := Id) d wayBack best s).run.2
    rw [search_succ]
    split
    next t ht =>
      rw [ht] at hnext
      rw [hbest]
      exact ih fun u hu => h u (hu.trans (hnext.1.trans hperm))
    next => exact hbest

theorem probe_eq_or_lt (d : ℕ → ℕ → α) (wayBack best : α) (s : List ℕ) :
    (probe (m := Id) d wayBack best s).run.1 = best ∨
      (probe (m := Id) d wayBack best s).run.1 < best := by
  match s with
  | [] => exact .inl rfl
  | a :: rest =>
    rw [probe_cons]
    split
    · split
      next => exact .inl rfl
      next length _ =>
        dsimp only
        split
        next hlt => exact .inr hlt
        next => exact .inl rfl
    · exact .inl rfl

section Bound

variable [IsStrictOrder α (· < ·)]

theorem search_eq_or_lt (d : ℕ → ℕ → α) (wayBack : α) (steps : ℕ) (s : List ℕ) (best : α) :
    (search (m := Id) d wayBack steps s best).run = best ∨
      (search (m := Id) d wayBack steps s best).run < best := by
  induction steps generalizing s best with
  | zero => exact .inl rfl
  | succ steps ih =>
    have hprobe := probe_eq_or_lt d wayBack best s
    rw [search_succ]
    split
    next t ht =>
      have hlater := ih t (probe (m := Id) d wayBack best s).run.1
      generalize (probe (m := Id) d wayBack best s).run.1 = best' at *
      rcases hlater with h | h
      · rwa [h]
      · rcases hprobe with rfl | hbest
        · exact .inr h
        · exact .inr (trans_of (· < ·) h hbest)
    next => exact hprobe

/-- A search finds its bound or something shorter. -/
theorem shortest_eq_or_lt (d : ℕ → ℕ → α) {stops : List ℕ} (hstops : stops ≠ []) (bound : α) :
    (shortest (m := Id) d stops bound).run = bound ∨
      (shortest (m := Id) d stops bound).run < bound := by
  simp only [shortest, if_neg hstops, Id.run_bind]
  exact search_eq_or_lt d _ _ _ bound

end Bound

/-- An arrangement that is the first of the shortest ones among those that count. -/
structure FirstShortest (d : ℕ → ℕ → α) (stops t : List ℕ) : Prop where
  perm : t.Perm stops
  counted : counts t = true
  le : ∀ u : List ℕ, u.Perm stops → counts u = true → reckoned d t ≤ reckoned d u
  lt : ∀ u : List ℕ, u.Perm stops → counts u = true → u < t → reckoned d t < reckoned d u

theorem FirstShortest.of_perm {stops stops' t : List ℕ} (h : FirstShortest d stops t)
    (hperm : stops.Perm stops') : FirstShortest d stops' t where
  perm := h.perm.trans hperm
  counted := h.counted
  le u hu := h.le u (hu.trans hperm.symm)
  lt u hu := h.lt u (hu.trans hperm.symm)

variable [Scalar.Lengths α]

theorem FirstShortest.unique {stops t t' : List ℕ} (h : FirstShortest d stops t)
    (h' : FirstShortest d stops t') : t = t' := by
  rcases lt_trichotomy t t' with hlt | heq | hlt
  · exact absurd (h.le t' h'.perm h'.counted)
      (Scalar.Lengths.not_le_of_lt (h'.lt t h.perm h.counted hlt))
  · exact heq
  · exact absurd (h'.le t h.perm h.counted)
      (Scalar.Lengths.not_le_of_lt (h.lt t' h'.perm h'.counted hlt))

open Scalar.Lengths in
theorem reckoned_nonneg (hd : ∀ i j, 0 ≤ d i j) (order : List ℕ) : 0 ≤ reckoned d order := by
  have hfrom : ∀ (order : List ℕ) (length : α) (place : ℕ), 0 ≤ length →
      0 ≤ (lengthFrom (m := Id) d length place order).run := by
    intro order
    induction order with
    | nil => exact fun length place h => add_nonneg h (hd place 0)
    | cons p rest ih => exact fun length place h => ih _ p (add_nonneg h (hd place p))
  match order with
  | [] => exact zero_le_zero
  | a :: rest => exact hfrom rest _ a (hd 0 a)

open Scalar.Lengths in
/-- The way home is at least as long as its last leg. -/
theorem le_lengthFrom (hd : ∀ i j, 0 ≤ d i j) (hback : 0 ≤ wayBack) {x length : α} {place : ℕ}
    {order : List ℕ} (hx : 0 ≤ x) (hle : x ≤ length)
    (h : ∀ i ∈ place :: order, wayBack ≤ d i 0) :
    x + wayBack ≤ (lengthFrom (m := Id) d length place order).run := by
  induction order generalizing length place with
  | nil => exact add_le_add hx hle hback (h place List.mem_cons_self)
  | cons p rest ih =>
    exact ih (le_trans hle (le_add (le_trans hx hle) (hd place p)))
      fun i hi => h i (List.mem_cons_of_mem place hi)

open Scalar.Lengths in
/-- No tour that begins with a way given up is shorter than the best one. -/
theorem best_le_of_givenUp (hd : ∀ i j, 0 ≤ d i j) (hback : 0 ≤ wayBack) {position j : ℕ}
    {length : α} {place : ℕ} {order : List ℕ} (hlength : 0 ≤ length)
    (h : (measureFrom (m := Id) d wayBack best position length place order).run = .givenUp j)
    {later : List ℕ} (hlater : later.take (j - position + 1) = order.take (j - position + 1))
    (hhome : ∀ i ∈ later, wayBack ≤ d i 0) :
    best ≤ (lengthFrom (m := Id) d length place later).run := by
  induction order generalizing position length place later with
  | nil => exact absurd h (by rintro ⟨⟩)
  | cons p rest ih =>
    match later with
    | [] => simp at hlater
    | q :: later =>
      obtain ⟨rfl, htake⟩ : q = p ∧ later.take (j - position) = rest.take (j - position) := by
        simpa using hlater
      have hleg : 0 ≤ length + d place q := add_nonneg hlength (hd place q)
      rw [measureFrom_cons] at h
      split at h
      next hle =>
        have hfrom : length + d place q + wayBack ≤
            (lengthFrom (m := Id) d (length + d place q) q later).run :=
          le_lengthFrom hd hback hleg (le_self hleg).2 hhome
        exact le_trans hle hfrom
      next =>
        obtain ⟨i, -, rfl⟩ := position_of_givenUp h
        have hplace : position + 1 + i - (position + 1) + 1 = position + 1 + i - position := by
          omega
        exact ih hleg h (by rwa [hplace]) fun i hi => hhome i (List.mem_cons_of_mem q hi)

open Scalar.Lengths in
/-- A probe before the first of the shortest arrangements does not pass over it, and keeps a best
tour that is longer; a probe at that arrangement finds it. -/
theorem probe_of_lt (hd : ∀ i j, 0 ≤ d i j) (hback : 0 ≤ wayBack) {s t : List ℕ}
    (hhome : ∀ i ∈ s, wayBack ≤ d i 0) (ht : FirstShortest d s t) (hst : s ≤ t)
    (hlt : reckoned d t < best) :
    (probe (m := Id) d wayBack best s).run.1 = reckoned d t ∨
      (probe (m := Id) d wayBack best s).run.2 < t ∧
        reckoned d t < (probe (m := Id) d wayBack best s).run.1 := by
  match s with
  | [] => exact absurd (List.perm_nil.mp ht.perm) (ne_nil_of_counts ht.counted)
  | a :: rest =>
    rw [probe_cons]
    split
    next hcounts =>
      split
      next position hgiven =>
        -- the tours passed over are no shorter than the best one, so this one is not among them
        refine .inr ⟨not_le.mp fun hle => not_le_of_lt hlt ?_, hlt⟩
        obtain ⟨i, hi, rfl⟩ := position_of_givenUp hgiven
        have htake : t.take (1 + i + 1) = (a :: rest).take (1 + i + 1) :=
          Arrangement.take_eq_of_between hst hle
            (Arrangement.take_lastAgreeing (by simp; omega)).symm
        match t with
        | [] => simp at htake
        | b :: later =>
          obtain ⟨rfl, htake⟩ : b = a ∧ later.take (1 + i) = rest.take (1 + i) := by
            simpa using htake
          refine best_le_of_givenUp hd hback (hd 0 b) hgiven ?_ fun i hi =>
            hhome i (ht.perm.mem_iff.mp (List.mem_cons_of_mem b hi))
          rwa [show 1 + i - 1 + 1 = 1 + i by omega]
      next length hclosed =>
        have hlength : length = reckoned d (a :: rest) := closed_length hclosed
        rcases hst.lt_or_eq with hst | rfl
        · refine .inr ⟨hst, ?_⟩
          split
          · rw [hlength]
            exact ht.lt _ (List.Perm.refl _) hcounts hst
          · exact hlt
        · rw [hlength, if_pos hlt]
          exact .inl rfl
    next hcounts =>
      refine .inr ⟨hst.lt_of_ne ?_, hlt⟩
      rintro rfl
      exact hcounts ht.counted

open Scalar.Lengths in
/-- A search that starts no later finds the first of the shortest arrangements. -/
theorem search_of_lt (hd : ∀ i j, 0 ≤ d i j) (hback : 0 ≤ wayBack) {s t : List ℕ}
    (hhome : ∀ i ∈ s, wayBack ≤ d i 0) (ht : FirstShortest d s t) (hst : s ≤ t)
    (hlt : reckoned d t < best) {steps : ℕ} (hsteps : (Arrangement.remaining s).card ≤ steps) :
    (search (m := Id) d wayBack steps s best).run = reckoned d t := by
  induction steps generalizing s best with
  | zero =>
    have hmem : t ∈ Arrangement.remaining s := Arrangement.mem_remaining.mpr ⟨ht.perm, hst⟩
    exact absurd (Finset.card_pos.mpr ⟨t, hmem⟩) (by omega)
  | succ steps ih =>
    have hperm := probe_perm d wayBack best s
    have hle := le_probe d wayBack best s
    have hprobe := probe_of_lt hd hback hhome ht hst hlt
    have hnext := Arrangement.next?_spec (probe (m := Id) d wayBack best s).run.2
    rw [search_succ]
    generalize (probe (m := Id) d wayBack best s).run.2 = reached at *
    generalize (probe (m := Id) d wayBack best s).run.1 = best' at *
    rcases hprobe with rfl | ⟨hreached, hbest⟩
    · split
      next u hu =>
        rw [hu] at hnext
        exact search_of_not_lt (fun v hv hcounts hlt => not_le_of_lt hlt
          (ht.le v (hv.trans (hnext.1.trans hperm)) hcounts)) steps
      next => rfl
    · split
      next u hu =>
        rw [hu] at hnext
        obtain ⟨hu, hlt', hleast⟩ := hnext
        have hus : u.Perm s := hu.trans hperm
        have hcard := Arrangement.card_remaining_lt hus (hle.trans_lt hlt')
        exact ih (fun i hi => hhome i (hus.mem_iff.mp hi)) (ht.of_perm hus.symm)
          (hleast t (ht.perm.trans hperm.symm) hreached) hbest (by omega)
      next hu =>
        rw [hu] at hnext
        exact absurd hreached
          (not_lt.mpr (Arrangement.le_of_descending hnext (ht.perm.trans hperm.symm)))

open Scalar.Lengths in
/-- There is one way to fly to one location. -/
theorem firstShortest_singleton (hd : ∀ i j, 0 ≤ d i j) (j : ℕ) : FirstShortest d [j] [j] where
  perm := List.Perm.refl [j]
  counted := rfl
  le u hu _ := by
    rw [List.perm_singleton.mp hu]
    exact (le_self (reckoned_nonneg hd [j])).2
  lt u hu _ hlt := by
    rw [List.perm_singleton.mp hu] at hlt
    exact absurd hlt (lt_irrefl [j])

open Scalar.Lengths in
theorem exists_least_first (hd : ∀ i j, 0 ≤ d i j) {ts : List (List ℕ)} (hts : ts ≠ []) :
    ∃ t ∈ ts, ∀ u ∈ ts, reckoned d t ≤ reckoned d u ∧ (u < t → reckoned d t < reckoned d u) := by
  have hself : ∀ t, reckoned d t ≤ reckoned d t := fun t => (le_self (reckoned_nonneg hd t)).2
  induction ts with
  | nil => exact absurd rfl hts
  | cons s ts ih =>
    rcases ts.eq_nil_or_concat with rfl | ⟨_, _, h⟩
    · exact ⟨s, by simp, by simp [hself]⟩
    obtain ⟨t, ht, hleast⟩ := ih (by simp [h])
    -- `t` gives way to `s` when `s` is shorter, or when it is as short and comes first
    by_cases hs : reckoned d s < reckoned d t ∨ reckoned d s ≤ reckoned d t ∧ s ≤ t
    · have hle : reckoned d s ≤ reckoned d t := hs.elim le_of_lt (·.1)
      refine ⟨s, List.mem_cons_self, List.forall_mem_cons.mpr ⟨⟨hself s, fun h => ?_⟩,
        fun u hu => ⟨le_trans hle (hleast u hu).1, fun hlt => ?_⟩⟩⟩
      · exact absurd h (lt_irrefl s)
      · rcases hs with hs | ⟨-, hst⟩
        · exact lt_of_lt_of_le hs (hleast u hu).1
        · exact lt_of_le_of_lt hle ((hleast u hu).2 (hlt.trans_le hst))
    · obtain ⟨hns, hfirst⟩ := not_or.mp hs
      have hle : reckoned d t ≤ reckoned d s :=
        (le_total (hself t) (hself s)).elim id fun h => by
          by_contra hn
          exact hns (lt_iff.mpr ⟨h, hn⟩)
      refine ⟨t, List.mem_cons_of_mem s ht, List.forall_mem_cons.mpr ⟨⟨hle, fun hlt => ?_⟩, hleast⟩⟩
      exact lt_iff.mpr ⟨hle, fun h => hfirst ⟨h, hlt.le⟩⟩

theorem exists_firstShortest (hd : ∀ i j, 0 ≤ d i j) {stops : List ℕ} (hstops : stops ≠ [])
    (hnodup : stops.Nodup) : ∃ t, FirstShortest d stops t := by
  have hne : stops.permutations.filter counts ≠ [] := by
    rcases counts_or_counts_reverse hstops hnodup with h | h
    · exact List.ne_nil_of_mem (List.mem_filter.mpr
        ⟨List.mem_permutations.mpr (List.Perm.refl stops), h⟩)
    · exact List.ne_nil_of_mem (List.mem_filter.mpr
        ⟨List.mem_permutations.mpr (List.reverse_perm stops), h⟩)
  obtain ⟨t, ht, hleast⟩ := exists_least_first hd hne
  obtain ⟨hperm, hcounts⟩ := List.mem_filter.mp ht
  have hmem : ∀ u : List ℕ, u.Perm stops → counts u = true → u ∈ stops.permutations.filter counts :=
    fun u hu hcounts => List.mem_filter.mpr ⟨List.mem_permutations.mpr hu, hcounts⟩
  exact ⟨t, List.mem_permutations.mp hperm, hcounts, fun u hu h => (hleast u (hmem u hu h)).1,
    fun u hu h => (hleast u (hmem u hu h)).2⟩

open Scalar.Lengths in
/-- The search finds the first of the shortest arrangements, unless it is not below the bound. The
legs home must not be shorter than the legs out. -/
theorem shortest_run (hd : ∀ i j, 0 ≤ d i j) {stops t : List ℕ} (ht : FirstShortest d stops t)
    (hhome : ∀ i ∈ stops, d 0 i ≤ d i 0) (bound : α) :
    (shortest (m := Id) d stops bound).run =
      if reckoned d t < bound then reckoned d t else bound := by
  have hstops : stops ≠ [] := fun h =>
    ne_nil_of_counts ht.counted (List.perm_nil.mp (h ▸ ht.perm))
  have hsorted : stops.mergeSort.Pairwise (· ≤ ·) :=
    List.pairwise_mergeSort' (fun x y => x ≤ y) stops
  have hperm : stops.mergeSort.Perm stops := List.mergeSort_perm _ _
  rw [shortest_eq_search d hstops]
  have hout : ∀ x ∈ stops.mergeSort.map (d 0), 0 ≤ x := by
    simpa using fun i _ => hd 0 i
  split
  next hlt =>
    refine search_of_lt hd ?_ ?_ (ht.of_perm hperm.symm)
      (Arrangement.le_of_ascending hsorted (ht.perm.trans hperm.symm)) hlt
      (Arrangement.card_remaining_le_count _)
    · cases h : Scalar.least? (stops.mergeSort.map (d 0)) with
      | none => exact zero_le_zero
      | some m => exact least?_nonneg hout h
    · intro i hi
      cases h : Scalar.least? (stops.mergeSort.map (d 0)) with
      | none => exact hd i 0
      | some m =>
        exact le_trans (least?_le hout h _ (List.mem_map_of_mem hi))
          (hhome i (hperm.mem_iff.mp hi))
  next hlt =>
    refine search_of_not_lt (fun u hu hcounts hlt' => hlt ?_) _
    exact lt_of_le_of_lt (ht.le u (hu.trans hperm) hcounts) hlt'

end Found

/-! ### The shortest tour in exact arithmetic -/

section Exact

variable {K : Type} [Field K] [LinearOrder K] [FloorRing K] {d : ℕ → ℕ → K}

theorem reckoned_eq_homeward {order : List ℕ} (h : order ≠ []) :
    reckoned d order = homeward d 0 order := by
  match order, h with
  | a :: rest, _ => exact lengthFrom_eq (d 0 a) a rest

/-- With symmetric distances, the first of the shortest arrangements is a shortest tour. -/
theorem FirstShortest.reckoned_eq {stops t : List ℕ} (ht : FirstShortest d stops t)
    (hnodup : stops.Nodup) (hsymm : ∀ i ∈ 0 :: stops, ∀ j ∈ 0 :: stops, d i j = d j i) :
    reckoned d t = optimum d stops.toFinset := by
  rw [reckoned_eq_homeward (ne_nil_of_counts ht.counted)]
  refine le_antisymm (le_optimum_iff.mpr fun order horder hset => ?_) ?_
  · have hperm : order.Perm stops := List.perm_of_nodup_nodup_toFinset_eq horder hnodup hset
    have hshort : ∀ u : List ℕ, u.Perm stops → counts u = true →
        homeward d 0 t ≤ homeward d 0 u := by
      intro u hu hcounts
      have hle := ht.le u hu hcounts
      rwa [reckoned_eq_homeward (ne_nil_of_counts ht.counted),
        reckoned_eq_homeward (ne_nil_of_counts hcounts)] at hle
    have horder' : order ≠ [] := by
      rintro rfl
      exact ne_nil_of_counts ht.counted (List.perm_nil.mp (ht.perm.trans hperm.symm))
    rcases counts_or_counts_reverse horder' horder with hcounts | hcounts
    · exact hshort order hperm hcounts
    · have hmem : ∀ i ∈ 0 :: order, i ∈ 0 :: stops := fun i hi => (hperm.cons 0).mem_iff.mp hi
      rw [← homeward_reverse fun i hi j hj => hsymm i (hmem i hi) j (hmem j hj)]
      exact hshort _ ((List.reverse_perm order).trans hperm) hcounts
  · rw [← List.toFinset_eq_of_perm _ _ ht.perm]
    exact optimum_le (ht.perm.nodup_iff.mpr hnodup)

variable [IsStrictOrderedRing K]

/-- In exact arithmetic and with symmetric distances, the search finds the length of the shortest
tour, or the bound when no tour is shorter. -/
theorem shortest_eq_min (hd : ∀ i j, 0 ≤ d i j) {stops : List ℕ} (hstops : stops ≠ [])
    (hnodup : stops.Nodup) (hsymm : ∀ i ∈ 0 :: stops, ∀ j ∈ 0 :: stops, d i j = d j i) (bound : K) :
    (shortest (m := Id) d stops bound).run = min bound (optimum d stops.toFinset) := by
  obtain ⟨t, ht⟩ := exists_firstShortest hd hstops hnodup
  rw [shortest_run hd ht (fun i hi => (hsymm 0 (by simp) i (by simp [hi])).le),
    ht.reckoned_eq hnodup hsymm]
  split
  next h => exact (min_eq_right h.le).symm
  next h => exact (min_eq_left (not_lt.mp h)).symm

end Exact

end OffshoreFlights.Tour
