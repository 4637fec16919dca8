import OffshoreFlights.Proofs.Problem
import OffshoreFlights.Proofs.Tour.Checked

/-! What the search for the shortest tour finds in exact arithmetic when a leg out and the leg home
may differ. Only one direction of each tour is measured, and the least leg out stands for the way
back, which a leg home may be shorter than. The search finds the shortest of the tours that it may
measure up to the most by which a leg out exceeds the leg home, and nothing is lost where no leg
does. Where opposite distances differ by no more than a tolerance, a tour differs from its reverse
by no more than the tolerance on each leg, and what is found from the shortest of all tours by no
more than that. -/

namespace OffshoreFlights.Tour

/-- The orders of some stops that are flown: the first stop is below the last, unless there is only
one. -/
def forwards (stops : List ℕ) : Set (List ℕ) :=
  {order | order.Perm stops ∧
    (order.length = 1 ∨ ∃ a middle b, order = a :: (middle ++ [b]) ∧ a < b)}

theorem counts_iff {order : List ℕ} :
    counts order = true ↔
      order.length = 1 ∨ ∃ a middle b, order = a :: (middle ++ [b]) ∧ a < b := by
  constructor
  · intro h
    match order with
    | [a] => exact .inl rfl
    | a :: c :: rest =>
      obtain ⟨middle, b, hrest⟩ : ∃ middle b, c :: rest = middle ++ [b] :=
        ⟨_, _, (List.dropLast_append_getLast (List.cons_ne_nil c rest)).symm⟩
      rw [hrest, counts_concat, decide_eq_true_eq] at h
      exact .inr ⟨a, middle, b, by rw [hrest], h⟩
  · rintro (h | ⟨a, middle, b, rfl, hab⟩)
    · obtain ⟨a, rfl⟩ := List.length_eq_one_iff.mp h
      rfl
    · rw [counts_concat, decide_eq_true_eq]
      exact hab

theorem mem_forwards {stops order : List ℕ} :
    order ∈ forwards stops ↔ order.Perm stops ∧ counts order = true :=
  and_congr_right fun _ => counts_iff.symm

section Ways

variable {K : Type} [Field K] {d : ℕ → ℕ → K}

theorem homeward_append (place : ℕ) (order rest : List ℕ) :
    homeward d place (order ++ rest) =
      outward d place order + homeward d (order.getLastD place) rest := by
  rw [homeward_eq_outward, homeward_eq_outward, List.append_assoc, outward_append]

variable [LinearOrder K] [IsStrictOrderedRing K]

theorem outward_nonneg (hd : ∀ i j, 0 ≤ d i j) (place : ℕ) (order : List ℕ) :
    0 ≤ outward d place order := by
  induction order generalizing place with
  | nil => exact le_refl 0
  | cons p rest ih => exact add_nonneg (hd place p) (ih p)

theorem outward_take_le (hd : ∀ i j, 0 ≤ d i j) (place : ℕ) (order : List ℕ) (i : ℕ) :
    outward d place (order.take i) ≤ outward d place order := by
  conv_rhs => rw [← List.take_append_drop i order, outward_append]
  exact le_add_of_nonneg_right (outward_nonneg hd _ _)

/-- A way backwards is longer by no more than its legs are. -/
theorem outward_reverse_le {t : K} (a b : ℕ) (order : List ℕ)
    (hd : ∀ i ∈ a :: b :: order, ∀ j ∈ a :: b :: order, d i j ≤ d j i + t) :
    outward d a (order ++ [b]) ≤ outward d b (order.reverse ++ [a]) + (order.length + 1) * t := by
  induction order generalizing a with
  | nil =>
    have := hd a (by simp) b (by simp)
    simp only [outward, List.nil_append, List.reverse_nil, List.length_nil]
    push_cast
    linarith
  | cons p order ih =>
    have hrest := ih p fun i hi j hj => hd i (by simp at hi ⊢; tauto) j (by simp at hj ⊢; tauto)
    have hleg := hd a (by simp) p (by simp)
    have hlast : (order.reverse ++ [p]).getLastD b = p := by simp
    rw [List.cons_append, outward, List.reverse_cons, outward_append b (order.reverse ++ [p]) [a],
      hlast, outward, outward, List.length_cons]
    push_cast
    linarith

/-- What is at most every leg home is at most the way home. -/
theorem le_homeward {x : K} (hd : ∀ i j, 0 ≤ d i j) {place : ℕ} {order : List ℕ}
    (h : ∀ i ∈ place :: order, x ≤ d i 0) : x ≤ homeward d place order := by
  induction order generalizing place with
  | nil => exact h place List.mem_cons_self
  | cons p rest ih =>
    calc x ≤ homeward d p rest := ih fun i hi => h i (List.mem_cons_of_mem place hi)
      _ ≤ d place p + homeward d p rest := le_add_of_nonneg_left (hd place p)

end Ways

/-! ### Tours that a search keeps -/

section Keeps

variable {K : Type} [Field K] [LinearOrder K] {d : ℕ → ℕ → K} {wayBack best goal : K}

/-- An order that no search gives up as long as its best tour is longer than `goal`: with the way
back, every way that begins the order is within it, and so is the tour. -/
structure Kept (d : ℕ → ℕ → K) (wayBack goal : K) (order : List ℕ) : Prop where
  counted : counts order = true
  ways : ∀ i, outward d 0 (order.take (i + 1)) + wayBack ≤ goal
  tour : homeward d 0 order ≤ goal

section Orders

variable [IsStrictOrderedRing K]

/-- An order that counts is kept up to what the way back may be too long. -/
theorem Kept.of_counts (hd : ∀ i j, 0 ≤ d i j) {order : List ℕ} (h : counts order = true) {δ : K}
    (hδ : 0 ≤ δ) (hback : ∀ i ∈ order, wayBack ≤ d i 0 + δ) :
    Kept d wayBack (homeward d 0 order + δ) order where
  counted := h
  tour := le_add_of_nonneg_right hδ
  ways i := by
    have hne : order.take (i + 1) ≠ [] := by simpa using ne_nil_of_counts h
    have hlast : (order.take (i + 1)).getLastD 0 ∈ order := by
      rw [List.getLastD_eq_getLast?, List.getLast?_eq_some_getLast hne, Option.getD_some]
      exact List.mem_of_mem_take (List.getLast_mem hne)
    have hhome : wayBack - δ ≤
        homeward d ((order.take (i + 1)).getLastD 0) (order.drop (i + 1)) := by
      refine le_homeward hd fun j hj => sub_le_iff_le_add.mpr (hback j ?_)
      rcases List.mem_cons.mp hj with rfl | hj
      · exact hlast
      · exact List.mem_of_mem_drop hj
    have hsplit := homeward_append (d := d) 0 (order.take (i + 1)) (order.drop (i + 1))
    rw [List.take_append_drop] at hsplit
    linarith

/-- An order whose reverse counts is kept in reverse, up to what the legs may differ: the way back
is no longer than the first leg out. -/
theorem Kept.of_counts_reverse (hd : ∀ i j, 0 ≤ d i j) {order : List ℕ}
    (h : counts order.reverse = true) {t : K}
    (hsymm : ∀ i ∈ 0 :: order, ∀ j ∈ 0 :: order, d i j ≤ d j i + t)
    (hback : ∀ i ∈ order, wayBack ≤ d 0 i) :
    Kept d wayBack (homeward d 0 order + (order.length + 1) * t) order.reverse := by
  match order with
  | [] => exact absurd rfl (ne_nil_of_counts h)
  | a :: rest =>
    have ht : 0 ≤ t := by
      have := hsymm a (by simp) a (by simp)
      linarith
    have hrest : ∀ i ∈ 0 :: a :: rest.reverse, ∀ j ∈ 0 :: a :: rest.reverse,
        d i j ≤ d j i + t := fun i hi j hj =>
      hsymm i (by simpa using hi) j (by simpa using hj)
    have hway : outward d 0 (a :: rest).reverse ≤ homeward d a rest + (rest.length + 1) * t := by
      have := outward_reverse_le 0 a rest.reverse hrest
      rwa [List.reverse_reverse, ← homeward_eq_outward, ← List.reverse_cons,
        List.length_reverse] at this
    have hback := hback a List.mem_cons_self
    refine ⟨h, fun i => ?_, ?_⟩
    · have htake := outward_take_le hd 0 (a :: rest).reverse (i + 1)
      rw [homeward, List.length_cons]
      push_cast
      linarith
    · have hleg := hsymm a (by simp) 0 (by simp)
      have hlast : (rest.reverse ++ [a]).getLastD 0 = a := by simp
      rw [homeward_eq_outward, outward_append, List.reverse_cons, hlast, outward, outward,
        ← List.reverse_cons, homeward, List.length_cons]
      push_cast
      linarith

end Orders

section Search

variable [FloorRing K]

/-- A way is given up where, with the way back, it is no shorter than the best tour. -/
theorem best_le_outward {position j : ℕ} {length : K} {place : ℕ} {order : List ℕ}
    (h : (measureFrom (m := Id) d wayBack best position length place order).run = .givenUp j) :
    best ≤ length + outward d place (order.take (j - position + 1)) + wayBack := by
  induction order generalizing position length place with
  | nil => exact absurd h (by rintro ⟨⟩)
  | cons p rest ih =>
    rw [measureFrom_cons] at h
    rw [List.take_succ_cons, outward, ← add_assoc]
    split at h
    next hle =>
      cases h
      rw [Nat.sub_self, List.take_zero, outward, add_zero]
      exact hle
    next =>
      obtain ⟨i, -, rfl⟩ := position_of_givenUp h
      have hrest := ih h
      rwa [show position + 1 + i - (position + 1) + 1 = position + 1 + i - position by omega]
        at hrest

/-- A probe comes within the goal, or it does not pass over the order that is kept. -/
theorem Kept.probe {s t : List ℕ} (ht : Kept d wayBack goal t) (hst : s ≤ t) (best : K) :
    (probe (m := Id) d wayBack best s).run.1 ≤ goal ∨
      (probe (m := Id) d wayBack best s).run.2 < t := by
  match s with
  | [] => exact .inr (lt_of_le_of_ne hst fun h => ne_nil_of_counts ht.counted h.symm)
  | a :: rest =>
    rw [probe_cons]
    split
    next hcounts =>
      split
      next position hgiven =>
        -- if `t` is not passed over, it begins with the way at which the order is given up
        refine or_iff_not_imp_right.mpr fun hpast => ?_
        obtain ⟨i, hi, rfl⟩ := position_of_givenUp hgiven
        have htake : t.take (1 + i + 1) = (a :: rest).take (1 + i + 1) :=
          Arrangement.take_eq_of_between hst (not_lt.mp hpast)
            (Arrangement.take_lastAgreeing (by simp; omega)).symm
        calc best ≤ d 0 a + outward d a (rest.take (1 + i - 1 + 1)) + wayBack :=
              best_le_outward hgiven
          _ = outward d 0 (t.take (1 + i + 1)) + wayBack := by
              rw [htake, List.take_succ_cons, outward, show 1 + i - 1 + 1 = 1 + i by omega]
          _ ≤ goal := ht.ways (1 + i)
      next length hclosed =>
        rcases hst.lt_or_eq with hst | rfl
        · exact .inr hst
        · have hlength : length ≤ goal := by
            rw [closed_length hclosed, lengthFrom_eq]
            exact ht.tour
          dsimp only
          split
          · exact .inl hlength
          next hlt => exact .inl ((not_lt.mp hlt).trans hlength)
    next hcounts =>
      refine .inr (lt_of_le_of_ne hst ?_)
      rintro rfl
      exact hcounts ht.counted

/-- What no order that counts comes below, nor the best tour so far, no search comes below. -/
theorem le_search {s : List ℕ} (hbest : goal ≤ best)
    (h : ∀ t : List ℕ, t.Perm s → counts t = true → goal ≤ homeward d 0 t) (steps : ℕ) :
    goal ≤ (search (m := Id) d wayBack steps s best).run := by
  induction steps generalizing s best with
  | zero => exact hbest
  | succ steps ih =>
    have hprobe : goal ≤ (probe (m := Id) d wayBack best s).run.1 := by
      match s with
      | [] => exact hbest
      | a :: rest =>
        rw [probe_cons]
        split
        next hcounts =>
          split
          next => exact hbest
          next length hclosed =>
            have hlength : goal ≤ length := by
              rw [closed_length hclosed, lengthFrom_eq]
              exact h _ (List.Perm.refl _) hcounts
            dsimp only
            split
            · exact hlength
            · exact hbest
        next => exact hbest
    have hperm := probe_perm d wayBack best s
    have hnext := Arrangement.next?_spec (probe (m := Id) d wayBack best s).run.2
    rw [search_succ]
    split
    next t ht =>
      rw [ht] at hnext
      exact ih hprobe fun u hu => h u (hu.trans (hnext.1.trans hperm))
    next => exact hprobe

/-- What a search finds is below neither its bound nor every order that is flown. -/
theorem le_shortest {stops : List ℕ} (hstops : stops ≠ []) (bound : K) {least : K}
    (h : ∀ order ∈ forwards stops, least ≤ homeward d 0 order) :
    min bound least ≤ (shortest (m := Id) d stops bound).run := by
  rw [shortest_eq_search d hstops]
  refine le_search (min_le_left _ _) (fun t ht hcounts => (min_le_right _ _).trans ?_) _
  exact h t (mem_forwards.mpr ⟨ht.trans (List.mergeSort_perm _ _), hcounts⟩)

variable [IsStrictOrderedRing K]

/-- A search that starts no later than an order that is kept comes within the goal. -/
theorem Kept.search {s t : List ℕ} (ht : Kept d wayBack goal t) (hperm : t.Perm s) (hst : s ≤ t)
    {steps : ℕ} (hsteps : (Arrangement.remaining s).card ≤ steps) :
    (search (m := Id) d wayBack steps s best).run ≤ goal := by
  induction steps generalizing s best with
  | zero =>
    have hmem : t ∈ Arrangement.remaining s := Arrangement.mem_remaining.mpr ⟨hperm, hst⟩
    exact absurd (Finset.card_pos.mpr ⟨t, hmem⟩) (by omega)
  | succ steps ih =>
    have hreached := probe_perm d wayBack best s
    have hle := le_probe d wayBack best s
    have hprobe := ht.probe hst best
    have hnext := Arrangement.next?_spec (Tour.probe (m := Id) d wayBack best s).run.2
    rw [search_succ]
    generalize (Tour.probe (m := Id) d wayBack best s).run.2 = reached at *
    generalize (Tour.probe (m := Id) d wayBack best s).run.1 = best' at *
    split
    next u hu =>
      rw [hu] at hnext
      obtain ⟨hperm', hlt, hleast⟩ := hnext
      -- once within the goal the search stays there, and until then `t` is still to come
      rcases hprobe with hbest | hpast
      · exact (search_eq_or_lt d wayBack steps u best').elim (fun h => h.trans_le hbest)
          fun h => h.le.trans hbest
      · have hcard := Arrangement.card_remaining_lt (hperm'.trans hreached) (hle.trans_lt hlt)
        exact ih (hperm.trans (hperm'.trans hreached).symm)
          (hleast t (hperm.trans hreached.symm) hpast) (by omega)
    next hu =>
      rw [hu] at hnext
      exact hprobe.resolve_right
        (not_lt.mpr (Arrangement.le_of_descending hnext (hperm.trans hreached.symm)))

end Search

end Keeps

end OffshoreFlights.Tour

/-! ### What a search over a table finds -/

namespace OffshoreFlights

section Table

variable {K : Type} [Field K] [LinearOrder K] [IsStrictOrderedRing K] [FloorRing K]
  {distances : DistanceTable K}

theorem DistanceTable.distance_le_add {t : K} (ht : 0 ≤ t)
    (h : distances.symmetricWithin t = true) {i j : ℕ} (hi : i < distances.size)
    (hj : j < distances.size) : distances.distance i j ≤ distances.distance j i + t := by
  have hclose := distances.symmetricWithin_iff.mp h
  simp only [Scalar.magnitude_exact, not_lt] at hclose
  rcases lt_trichotomy i j with hij | rfl | hij
  · linarith [le_of_abs_le (hclose i j hij hj)]
  · exact le_add_of_nonneg_right ht
  · linarith [neg_le_of_abs_le (hclose j i hij hi)]

namespace Tour

variable {d : ℕ → ℕ → K}

/-- A search finds nothing longer than an order that it keeps, whatever it takes for the way back
that is no longer than the first leg. -/
theorem shortest_le_of_kept (hd : ∀ i j, 0 ≤ d i j) {stops order : List ℕ}
    (hperm : order.Perm stops) (bound : K) {goal : K}
    (h : ∀ wayBack, (∀ i ∈ order, wayBack ≤ d 0 i) → ∃ t, t.Perm order ∧ Kept d wayBack goal t) :
    (shortest (m := Id) d stops bound).run ≤ goal := by
  have hsort : stops.mergeSort.Perm stops := List.mergeSort_perm _ _
  have hsorted : stops.mergeSort.Pairwise (· ≤ ·) :=
    List.pairwise_mergeSort' (fun x y => x ≤ y) stops
  have hout : ∀ x ∈ stops.mergeSort.map (d 0), 0 ≤ x := by
    simpa using fun i _ => hd 0 i
  obtain ⟨t, ht, hkept⟩ := h ((Scalar.least? (stops.mergeSort.map (d 0))).getD 0) fun i hi => by
    cases hleast : Scalar.least? (stops.mergeSort.map (d 0)) with
    | none => exact hd 0 i
    | some least =>
      exact Scalar.Lengths.least?_le hout hleast _
        (List.mem_map_of_mem ((hperm.trans hsort.symm).mem_iff.mp hi))
  have hstops : stops ≠ [] := by
    rintro rfl
    exact ne_nil_of_counts hkept.counted (List.perm_nil.mp (ht.trans hperm))
  have htsort : t.Perm stops.mergeSort := ht.trans (hperm.trans hsort.symm)
  rw [shortest_eq_search d hstops]
  exact hkept.search htsort (Arrangement.le_of_ascending hsorted htsort)
    (Arrangement.card_remaining_le_count _)

/-- What a search finds is no longer than an order that is flown, up to the most by which a leg out
exceeds the leg home. -/
theorem shortest_le_of_forwards (hd : ∀ i j, 0 ≤ d i j) {stops order : List ℕ}
    (horder : order ∈ forwards stops) (bound : K) {excess : K} (hexcess : 0 ≤ excess)
    (hhome : ∀ i ∈ stops, d 0 i ≤ d i 0 + excess) :
    (shortest (m := Id) d stops bound).run ≤ homeward d 0 order + excess := by
  obtain ⟨hperm, hcounts⟩ := mem_forwards.mp horder
  refine shortest_le_of_kept hd hperm bound fun wayBack hback => ⟨order, List.Perm.refl _, ?_⟩
  exact .of_counts hd hcounts hexcess fun i hi =>
    (hback i hi).trans (hhome i (hperm.mem_iff.mp hi))

/-- What a search finds is no longer than the shortest of all tours, up to what opposite legs
differ. -/
theorem shortest_le_optimum_add (hd : ∀ i j, 0 ≤ d i j) {stops : List ℕ} (hstops : stops ≠ [])
    (hnodup : stops.Nodup) (bound : K) {t : K} (ht : 0 ≤ t)
    (hlegs : ∀ i ∈ 0 :: stops, ∀ j ∈ 0 :: stops, d i j ≤ d j i + t) :
    (shortest (m := Id) d stops bound).run ≤
      optimum d stops.toFinset + (stops.length + 1) * t := by
  obtain ⟨order, horder, hset, hoptimum⟩ := exists_order_of_optimum d stops.toFinset
  have hperm : order.Perm stops := List.perm_of_nodup_nodup_toFinset_eq horder hnodup hset
  have hmem : ∀ i ∈ 0 :: order, i ∈ 0 :: stops := fun i hi => (hperm.cons 0).mem_iff.mp hi
  have hne : order ≠ [] := fun h => hstops (List.nil_perm.mp (h ▸ hperm))
  rw [hoptimum]
  -- a shortest tour may be one that is flown the other way round only
  rcases counts_or_counts_reverse hne horder with hcounts | hcounts
  · have hslack : t ≤ (stops.length + 1) * t :=
      le_mul_of_one_le_left ht (le_add_of_nonneg_left (Nat.cast_nonneg _))
    refine shortest_le_of_forwards hd (mem_forwards.mpr ⟨hperm, hcounts⟩) bound
      (ht.trans hslack) fun i hi => ?_
    have := hlegs 0 (by simp) i (by simp [hi])
    linarith
  · refine shortest_le_of_kept hd hperm bound fun wayBack hback =>
      ⟨order.reverse, List.reverse_perm order, ?_⟩
    rw [← hperm.length_eq]
    exact .of_counts_reverse hd hcounts
      (fun i hi j hj => hlegs i (hmem i hi) j (hmem j hj)) hback

theorem exists_shortest_forwards (hd : ∀ i j, 0 ≤ d i j) {stops : List ℕ} (hstops : stops ≠ [])
    (hnodup : stops.Nodup) :
    ∃ order ∈ forwards stops,
      ∀ other ∈ forwards stops, homeward d 0 order ≤ homeward d 0 other := by
  obtain ⟨order, horder⟩ := exists_firstShortest hd hstops hnodup
  refine ⟨order, mem_forwards.mpr ⟨horder.perm, horder.counted⟩, fun other hother => ?_⟩
  obtain ⟨hperm, hcounts⟩ := mem_forwards.mp hother
  rw [← reckoned_eq_homeward (ne_nil_of_counts horder.counted),
    ← reckoned_eq_homeward (ne_nil_of_counts hcounts)]
  exact horder.le other hperm hcounts

/-- What a search over a table finds is no shorter than the bound and the shortest of the orders
that it measures. It is longer by no more than a leg out exceeds the leg home, and longer than the
shortest of all tours by no more than opposite legs differ. -/
theorem shortest_isLeast (hcells : ∀ cell ∈ distances.cells, 0 ≤ cell) {stops : List ℕ}
    (hstops : stops ≠ []) (hnodup : stops.Nodup) (hsize : ∀ i ∈ stops, i < distances.size)
    (bound : K) :
    ∃ found least, shortest distances.distanceChecked stops bound = .ok found ∧
      IsLeast ((fun order => (length (m := Id) distances.distance order).run) '' forwards stops)
        least ∧
      min bound least ≤ found ∧
      (∀ excess, 0 ≤ excess →
        (∀ i ∈ stops, distances.distance 0 i ≤ distances.distance i 0 + excess) →
          found ≤ min bound least + excess) ∧
      ∀ t, 0 ≤ t → distances.symmetricWithin t = true →
        min bound (optimum distances.distance stops.toFinset) ≤ found ∧
          found ≤ min bound (optimum distances.distance stops.toFinset) +
            (stops.length + 1) * t := by
  have hd := DistanceTable.distance_nonneg hcells
  obtain ⟨order, horder, hleast⟩ := exists_shortest_forwards hd hstops hnodup
  have hbound : (shortest (m := Id) distances.distance stops bound).run ≤ bound :=
    (shortest_eq_or_lt distances.distance hstops bound).elim le_of_eq le_of_lt
  have hfound : min bound (homeward distances.distance 0 order) ≤
      (shortest (m := Id) distances.distance stops bound).run := le_shortest hstops bound hleast
  refine ⟨_, homeward distances.distance 0 order, distances.shortest_eq hstops hsize bound,
    ⟨⟨order, horder, length_eq_homeward order⟩, ?_⟩, hfound, fun excess hexcess hhome => ?_,
    fun t ht hsymm => ⟨?_, ?_⟩⟩
  · rintro _ ⟨other, hother, rfl⟩
    dsimp only
    rw [length_eq_homeward]
    exact hleast other hother
  · rw [min_add]
    exact le_min (hbound.trans (le_add_of_nonneg_right hexcess))
      (shortest_le_of_forwards hd horder bound hexcess hhome)
  · have hperm := (mem_forwards.mp horder).1
    have hoptimum := optimum_le (d := distances.distance) (hperm.nodup_iff.mpr hnodup)
    rw [List.toFinset_eq_of_perm _ _ hperm] at hoptimum
    exact (min_le_min_left bound hoptimum).trans hfound
  · obtain ⟨k, hk⟩ := List.exists_mem_of_ne_nil _ hstops
    have hlocated : ∀ i ∈ 0 :: stops, i < distances.size :=
      List.forall_mem_cons.mpr ⟨Nat.zero_lt_of_lt (hsize k hk), hsize⟩
    have hlegs : ∀ i ∈ 0 :: stops, ∀ j ∈ 0 :: stops,
        distances.distance i j ≤ distances.distance j i + t := fun i hi j hj =>
      DistanceTable.distance_le_add ht hsymm (hlocated i hi) (hlocated j hj)
    rw [min_add]
    exact le_min (hbound.trans (le_add_of_nonneg_right (by positivity)))
      (shortest_le_optimum_add hd hstops hnodup bound ht hlegs)

end Tour

end Table

/-- Two platforms one unit apart and one unit away from the depot, but for the way home from the
second one, which is shorter by less than the tolerance of problems. -/
def DistanceTable.quickReturn : DistanceTable ℚ :=
  ⟨3, #[0, 1, 1, 1, 0, 1, 1 - 1 / 2 ^ 31, 1, 0], rfl⟩

namespace Tour

theorem shortest_isLeast_quickReturn :
    (∀ cell ∈ DistanceTable.quickReturn.cells, 0 ≤ cell) ∧ [2, 1] ≠ [] ∧ [2, 1].Nodup ∧
      (∀ i ∈ [2, 1], i < DistanceTable.quickReturn.size) ∧
      DistanceTable.quickReturn.symmetricWithin (1 / 2 ^ 31) = true ∧
      ∃ found least, shortest DistanceTable.quickReturn.distanceChecked [2, 1] 4 = .ok found ∧
        IsLeast ((fun order => (length (m := Id) DistanceTable.quickReturn.distance order).run) ''
          forwards [2, 1]) least ∧
        min 4 least ≤ found ∧ found ≤ min 4 least + 1 / 2 ^ 31 ∧
        min 4 (optimum DistanceTable.quickReturn.distance [2, 1].toFinset) ≤ found ∧
        found ≤ min 4 (optimum DistanceTable.quickReturn.distance [2, 1].toFinset) +
          ([2, 1].length + 1) * (1 / 2 ^ 31) := by
  have hcells : ∀ cell ∈ DistanceTable.quickReturn.cells, 0 ≤ cell := by decide +kernel
  have hsize : ∀ i ∈ [2, 1], i < DistanceTable.quickReturn.size := by decide
  have hsymm : DistanceTable.quickReturn.symmetricWithin (1 / 2 ^ 31) = true := by decide +kernel
  have hhome : ∀ i ∈ [2, 1], DistanceTable.quickReturn.distance 0 i ≤
      DistanceTable.quickReturn.distance i 0 + 1 / 2 ^ 31 := by decide +kernel
  obtain ⟨found, least, hfound, hleast, hle, hexcess, hall⟩ :=
    shortest_isLeast hcells (show [2, 1] ≠ [] by decide) (by decide) hsize 4
  exact ⟨hcells, by decide, by decide, hsize, hsymm, found, least, hfound, hleast, hle,
    hexcess (1 / 2 ^ 31) (by norm_num) hhome, hall (1 / 2 ^ 31) (by norm_num) hsymm⟩

/-- The only order that is flown ends with the leg home that is shorter than all legs out. The
search gives it up under a bound that it is shorter than. -/
theorem shortest_overlooks_quickReturn :
    (∀ cell ∈ DistanceTable.quickReturn.cells, 0 ≤ cell) ∧
      DistanceTable.quickReturn.symmetricWithin Problem.symmetryTolerance = true ∧
      shortest DistanceTable.quickReturn.distanceChecked [1, 2] (3 - 1 / 2 ^ 32) =
        .ok (3 - 1 / 2 ^ 32) ∧
      ∃ order ∈ forwards [1, 2],
        (length (m := Id) DistanceTable.quickReturn.distance order).run < 3 - 1 / 2 ^ 32 := by
  have hsort : [1, 2].mergeSort = [1, 2] := by simp [List.mergeSort]
  refine ⟨by decide +kernel, by decide +kernel, ?_, [1, 2], ?_, by decide +kernel⟩
  · rw [DistanceTable.quickReturn.shortest_eq (by decide) (by decide), Tour.shortest, hsort]
    decide +kernel
  · exact mem_forwards.mpr ⟨List.Perm.refl _, rfl⟩

end Tour

end OffshoreFlights
