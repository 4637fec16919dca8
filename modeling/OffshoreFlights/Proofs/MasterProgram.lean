import Mathlib.Data.List.Basic
import OffshoreFlights.MasterProgram
import OffshoreFlights.Proofs.Problem

/-! What the operations of the master program do to its itineraries. -/

namespace OffshoreFlights.MasterProgram

variable {L α : Type} [Scalar α] [Lp.Backend L α] {m : MasterProgram L α} {it : Itinerary α}

/-! ### Reset -/

theorem set_append_drop {β : Type} {first rest : List β} {n : ℕ} (hfirst : first.length = n)
    (hn : n < rest.length) (x : β) :
    (first ++ rest.drop n).set n x = first ++ [x] ++ rest.drop (n + 1) := by
  subst hfirst
  rw [List.set_append_right _ _ (le_refl _), Nat.sub_self, List.drop_eq_getElem_cons hn,
    List.set_cons_zero, List.append_assoc]
  rfl

theorem itineraries_resetRows (p : Problem α) (residual : List ℕ) (m : MasterProgram L α) (n : ℕ) :
    (((List.range n).map (· + 1)).foldl (resetRow p residual) m).itineraries =
      ((List.range n).map fun i => basisItinerary p residual (i + 1)) ++ m.itineraries.drop n := by
  induction n with
  | zero => rfl
  | succ n ih =>
    rw [List.range_succ, List.map_append, List.foldl_append, List.map_append, List.append_assoc]
    set before := ((List.range n).map (· + 1)).foldl (resetRow p residual) m
    show (resetRow p residual before (n + 1)).itineraries = _
    have hlength : before.itineraries.length = n + (m.itineraries.length - n) := by
      rw [ih, List.length_append, List.length_map, List.length_range, List.length_drop]
    by_cases h : n < m.itineraries.length
    · have hset : (resetRow p residual before (n + 1)).itineraries =
          before.itineraries.set n (basisItinerary p residual (n + 1)) := by
        unfold resetRow
        rw [if_pos (show n + 1 - 1 < before.itineraries.length by omega)]
        rfl
      rw [hset, ih, set_append_drop (by simp) h, List.append_assoc]
      rfl
    · have happend : (resetRow p residual before (n + 1)).itineraries =
          before.itineraries ++ [basisItinerary p residual (n + 1)] := by
        unfold resetRow
        rw [if_neg (show ¬n + 1 - 1 < before.itineraries.length by omega)]
      rw [happend, ih, List.drop_eq_nil_of_le (by omega), List.drop_eq_nil_of_le (by omega),
        List.append_nil, List.append_nil]
      rfl

theorem reset_induction {P : MasterProgram L α → Prop} {p : Problem α} {residual : List ℕ}
    (hrow : ∀ m j, P m → P (resetRow p residual m j)) (hcollect : ∀ m, P m → P m.collectKnown)
    (h : P m) : P (m.reset p residual) :=
  hcollect _ (List.foldlRecOn _ _ h fun m hm j _ => hrow m j hm)

/-- The platforms' own itineraries. -/
def basis (p : Problem α) (residual : List ℕ) : List (Itinerary α) :=
  (List.range p.platformCount).map fun i => basisItinerary p residual (i + 1)

@[simp] theorem length_basis (p : Problem α) (residual : List ℕ) :
    (basis p residual).length = p.platformCount := by
  simp [basis]

theorem mem_basis {p : Problem α} {residual : List ℕ} : it ∈ basis p residual ↔
    ∃ j, 1 ≤ j ∧ j ≤ p.platformCount ∧ it = basisItinerary p residual j := by
  rw [basis, List.mem_map]
  constructor
  · rintro ⟨i, hi, rfl⟩
    exact ⟨i + 1, by omega, List.mem_range.mp hi, rfl⟩
  · rintro ⟨j, h1, hj, rfl⟩
    exact ⟨j - 1, List.mem_range.mpr (by omega), by rw [Nat.sub_add_cancel h1]⟩

theorem le_length_of_take {p : Problem α} {residual : List ℕ} {its : List (Itinerary α)}
    (h : its.take p.platformCount = basis p residual) : p.platformCount ≤ its.length := by
  have hlength := congrArg List.length h
  rw [List.length_take, length_basis] at hlength
  omega

/-- A reset puts the platforms' own itineraries in front and keeps the ones behind them. -/
theorem itineraries_reset (p : Problem α) (residual : List ℕ) (m : MasterProgram L α) :
    (m.reset p residual).itineraries = basis p residual ++ m.itineraries.drop p.platformCount :=
  itineraries_resetRows p residual m p.platformCount

theorem take_reset (p : Problem α) (residual : List ℕ) (m : MasterProgram L α) :
    (m.reset p residual).itineraries.take p.platformCount = basis p residual := by
  rw [itineraries_reset]
  exact List.take_left' (length_basis p residual)

theorem mem_itineraries_reset {p : Problem α} {residual : List ℕ}
    (h : it ∈ (m.reset p residual).itineraries) :
    (∃ j, 1 ≤ j ∧ j ≤ p.platformCount ∧ it = basisItinerary p residual j) ∨
      it ∈ m.itineraries := by
  rw [itineraries_reset, List.mem_append] at h
  rcases h with h | h
  · exact .inl (mem_basis.mp h)
  · exact .inr (List.mem_of_mem_drop h)

theorem basisSize_resetRow (p : Problem α) (residual : List ℕ) (m : MasterProgram L α) (j : ℕ) :
    (resetRow p residual m j).basisSize = m.basisSize := by
  unfold resetRow
  split <;> rfl

theorem basisSize_reset (p : Problem α) (residual : List ℕ) (m : MasterProgram L α) :
    (m.reset p residual).basisSize = m.basisSize :=
  reset_induction (P := fun m' => m'.basisSize = m.basisSize)
    (fun m' j h => (basisSize_resetRow p residual m' j).trans h) (fun _ h => h) rfl

theorem resetChecked_of_lt {p : Problem α} {residual : List ℕ}
    (h : p.platformCount < residual.length) :
    m.resetChecked p residual = .ok (m.reset p residual) := if_pos h

theorem resetChecked_eq_ok {p : Problem α} {residual : List ℕ} {m' : MasterProgram L α}
    (h : m.resetChecked p residual = .ok m') : m' = m.reset p residual := by
  unfold resetChecked at h
  split at h
  · exact (Except.ok.inj h).symm
  · cases h

/-! ### Additions -/

theorem add_of_contains (h : m.contains it = true) : m.add it = (false, m) := if_pos h

theorem add_of_not_contains (h : m.contains it = false) :
    m.add it = (true, { m with
      lp := Lp.Backend.addColumn m.lp it.column
      itineraries := m.itineraries ++ [it]
      known := m.known.insert it.allocation }) := if_neg (by simp [h])

/-- The allocations on record are those of the itineraries. -/
def Catalogued (m : MasterProgram L α) : Prop :=
  ∀ allocation, m.known.contains allocation = true ↔
    ∃ it ∈ m.itineraries, it.allocation = allocation

omit [Scalar α] [Lp.Backend L α] in
theorem catalogued_collectKnown (m : MasterProgram L α) : m.collectKnown.Catalogued := by
  intro allocation
  rw [collectKnown, Std.HashSet.contains_ofList, List.contains_iff_mem, List.mem_map]

theorem catalogued_reset (m : MasterProgram L α) (p : Problem α) (residual : List ℕ) :
    (m.reset p residual).Catalogued := catalogued_collectKnown _

omit [Scalar α] [Lp.Backend L α] in
theorem Catalogued.contains_eq_false (h : m.Catalogued)
    (hnew : ∀ held ∈ m.itineraries, held.allocation ≠ it.allocation) : m.contains it = false := by
  rw [Bool.eq_false_iff]
  intro hcontains
  obtain ⟨held, hheld, hallocation⟩ := (h it.allocation).mp hcontains
  exact hnew held hheld hallocation

omit [Scalar α] [Lp.Backend L α] in
theorem Catalogued.contains_congr {M : Type} {m' : MasterProgram M α} (h : m.Catalogued)
    (h' : m'.Catalogued) (hitineraries : m.itineraries = m'.itineraries) (it : Itinerary α) :
    m.contains it = m'.contains it := by
  rw [Bool.eq_iff_iff, contains, contains, h it.allocation, h' it.allocation, hitineraries]

omit [Scalar α] [Lp.Backend L α] in
theorem Catalogued.allocation_ne (h : m.Catalogued) (hunknown : m.contains it = false) :
    ∀ held ∈ m.itineraries, held.allocation ≠ it.allocation := fun held hheld heq =>
  Bool.eq_false_iff.mp hunknown ((h it.allocation).mpr ⟨held, hheld, heq⟩)

theorem nodup_allocations_concat {α : Type} {its : List (Itinerary α)} {it : Itinerary α}
    (h : (its.map Itinerary.allocation).Nodup)
    (hnew : ∀ held ∈ its, held.allocation ≠ it.allocation) :
    ((its ++ [it]).map Itinerary.allocation).Nodup := by
  rw [List.map_append, List.nodup_append]
  refine ⟨h, by simp, ?_⟩
  intro a ha b hb
  obtain ⟨held, hheld, rfl⟩ := List.mem_map.mp ha
  obtain rfl := List.mem_singleton.mp hb
  exact hnew held hheld

theorem Catalogued.add (h : m.Catalogued) (it : Itinerary α) : (m.add it).2.Catalogued := by
  by_cases hcontains : m.contains it = true
  · rw [add_of_contains hcontains]
    exact h
  · rw [add_of_not_contains (by simpa using hcontains)]
    intro allocation
    rw [Std.HashSet.contains_insert, Bool.or_eq_true, h allocation, beq_iff_eq]
    simp only [List.mem_append, List.mem_singleton]
    constructor
    · rintro (rfl | ⟨held, hheld, rfl⟩)
      · exact ⟨it, .inr rfl, rfl⟩
      · exact ⟨held, .inl hheld, rfl⟩
    · rintro ⟨held, hheld | rfl, rfl⟩
      · exact .inr ⟨held, hheld, rfl⟩
      · exact .inl rfl

theorem mem_itineraries_add {it' : Itinerary α} (h : it' ∈ (m.add it).2.itineraries) :
    it' ∈ m.itineraries ∨ it' = it := by
  by_cases hcontains : m.contains it = true
  · rw [add_of_contains hcontains] at h
    exact .inl h
  · rw [add_of_not_contains (by simpa using hcontains)] at h
    simpa using h

/-- An addition changes nothing about itineraries with other allocations. -/
theorem contains_add_of_ne {it' : Itinerary α} (h : it.allocation ≠ it'.allocation) :
    (m.add it).2.contains it' = m.contains it' := by
  by_cases hcontains : m.contains it = true
  · rw [add_of_contains hcontains]
  · rw [add_of_not_contains (by simpa using hcontains)]
    simp [contains, Std.HashSet.contains_insert, h]

theorem basisSize_add (m : MasterProgram L α) (it : Itinerary α) :
    (m.add it).2.basisSize = m.basisSize := by
  unfold add
  split <;> rfl

/-! ### Removals -/

/-- Without the places of the elements that have a property, a list keeps the others in order. -/
theorem eraseIndices_places {β : Type} (P : β × ℕ → Bool) (xs : List β) :
    Lp.eraseIndices ((xs.zipIdx.filter P).map Prod.snd) xs =
      (xs.zipIdx.filter fun pair => !P pair).map Prod.fst := by
  unfold Lp.eraseIndices
  congr 1
  refine List.filter_congr fun pair hpair => congrArg (!·) ?_
  rw [Bool.eq_iff_iff, List.contains_iff_mem]
  constructor
  · intro hmem
    obtain ⟨other, hother, hplace⟩ := List.mem_map.mp hmem
    obtain ⟨hmem', hP⟩ := List.mem_filter.mp hother
    have hget := List.mk_mem_zipIdx_iff_getElem?.mp hpair
    have hget' := List.mk_mem_zipIdx_iff_getElem?.mp hmem'
    rw [hplace, hget] at hget'
    rwa [Prod.ext (Option.some.inj hget') hplace.symm]
  · intro hP
    exact List.mem_map_of_mem (List.mem_filter.mpr ⟨hpair, hP⟩)

theorem filter_from {β : Type} (n : ℕ) (Q : β → Bool) (xs : List β) :
    (xs.zipIdx.filter fun pair => !(decide (n ≤ pair.2) && !Q pair.1)).map Prod.fst =
      xs.take n ++ (xs.drop n).filter Q := by
  have hfirst : ∀ pair ∈ (xs.take n).zipIdx, (!(decide (n ≤ pair.2) && !Q pair.1)) = true := by
    intro pair hpair
    have hlt : pair.2 < n := by
      have := List.snd_lt_of_mem_zipIdx hpair
      rw [List.length_take] at this
      omega
    simp [hlt]
  have hrest : ∀ pair ∈ (xs.drop n).zipIdx (xs.take n).length,
      (!(decide (n ≤ pair.2) && !Q pair.1)) = Q pair.1 := by
    intro pair hpair
    have hle : n ≤ pair.2 := by
      have := List.le_snd_of_mem_zipIdx hpair
      have := List.snd_lt_of_mem_zipIdx hpair
      rw [List.length_drop] at this
      rw [List.length_take] at *
      omega
    simp [hle]
  conv_lhs => rw [← List.take_append_drop n xs]
  rw [List.zipIdx_append, List.filter_append, List.map_append, Nat.zero_add,
    List.filter_eq_self.mpr hfirst, List.filter_congr hrest, List.zipIdx_map_fst]
  congr 1
  conv_rhs => rw [← List.zipIdx_map_fst (xs.take n).length (xs.drop n), List.filter_map]
  rfl

omit [Scalar α] [Lp.Backend L α] in
theorem eraseIndices_unfit (m : MasterProgram L α) (residual : List ℕ) :
    Lp.eraseIndices (m.unfit residual) m.itineraries =
      m.itineraries.take m.basisSize ++
        (m.itineraries.drop m.basisSize).filter (Itinerary.fitsWithin · residual) :=
  (eraseIndices_places _ _).trans
    (filter_from m.basisSize (Itinerary.fitsWithin · residual) m.itineraries)

omit [Scalar α] in
/-- A removal keeps the itineraries in front, and of those behind them the ones that fit. -/
theorem itineraries_removeUnfit (m : MasterProgram L α) (residual : List ℕ) :
    (m.removeUnfit residual).2.itineraries =
      m.itineraries.take m.basisSize ++
        (m.itineraries.drop m.basisSize).filter (Itinerary.fitsWithin · residual) := by
  rw [← eraseIndices_unfit]
  unfold removeUnfit
  dsimp only
  split
  next h => simp [h, Lp.eraseIndices]
  next => rfl

omit [Scalar α] in
theorem sublist_removeUnfit (m : MasterProgram L α) (residual : List ℕ) :
    (m.removeUnfit residual).2.itineraries.Sublist m.itineraries := by
  rw [itineraries_removeUnfit]
  conv_rhs => rw [← List.take_append_drop m.basisSize m.itineraries]
  exact (List.Sublist.refl _).append List.filter_sublist

omit [Scalar α] in
theorem take_removeUnfit {n : ℕ} (hsize : m.basisSize = n) (residual : List ℕ) :
    (m.removeUnfit residual).2.itineraries.take n = m.itineraries.take n := by
  subst hsize
  rw [itineraries_removeUnfit]
  by_cases hlong : m.basisSize ≤ m.itineraries.length
  · exact List.take_left' (by rw [List.length_take, Nat.min_eq_left hlong])
  · rw [List.drop_eq_nil_of_le (by omega), List.filter_nil, List.append_nil, List.take_take,
      Nat.min_self]

omit [Scalar α] in
theorem length_removeUnfit (m : MasterProgram L α) (residual : List ℕ) :
    (m.removeUnfit residual).1 + (m.removeUnfit residual).2.itineraries.length =
      m.itineraries.length := by
  have hcount : (m.removeUnfit residual).1 = (m.unfit residual).length := by
    unfold removeUnfit
    dsimp only
    split
    next h => simp [h]
    next => rfl
  rw [hcount, itineraries_removeUnfit, ← eraseIndices_unfit, unfit, eraseIndices_places,
    List.length_map, List.length_map, ← List.length_eq_length_filter_add, List.length_zipIdx]

omit [Scalar α] in
theorem mem_itineraries_removeUnfit {residual : List ℕ}
    (h : it ∈ (m.removeUnfit residual).2.itineraries) : it ∈ m.itineraries :=
  (sublist_removeUnfit m residual).subset h

omit [Scalar α] in
theorem mem_drop_removeUnfit {residual : List ℕ} {n : ℕ} (hsize : m.basisSize = n)
    (h : it ∈ (m.removeUnfit residual).2.itineraries.drop n) :
    it ∈ m.itineraries.drop n ∧ it.fitsWithin residual = true := by
  subst hsize
  rw [itineraries_removeUnfit, List.drop_append] at h
  rcases List.mem_append.mp h with h | h
  · simp at h
  · exact List.mem_filter.mp (List.mem_of_mem_drop h)

omit [Scalar α] in
theorem basisSize_removeUnfit (m : MasterProgram L α) (residual : List ℕ) :
    (m.removeUnfit residual).2.basisSize = m.basisSize := by
  unfold removeUnfit
  dsimp only
  split <;> rfl

omit [Scalar α] in
theorem catalogued_removeUnfit {residual : List ℕ} (h : m.Catalogued) :
    (m.removeUnfit residual).2.Catalogued := by
  unfold removeUnfit
  dsimp only
  split
  · exact h
  · exact catalogued_collectKnown _

/-! ### Solutions -/

theorem mem_flightsAbove {tolerance : α} {f : FractionalFlight α} :
    f ∈ m.flightsAbove tolerance ↔ ∃ j, m.itineraries[j]? = some f.itinerary ∧
      f.frequency = Lp.Backend.primal m.lp j ∧ tolerance < f.frequency := by
  simp only [flightsAbove, List.mem_filterMap, Prod.exists, Option.ite_none_right_eq_some,
    Option.some.injEq]
  constructor
  · rintro ⟨it, j, hmem, habove, rfl⟩
    exact ⟨j, List.mk_mem_zipIdx_iff_getElem?.mp hmem, rfl, habove⟩
  · rintro ⟨j, hmem, hfrequency, habove⟩
    refine ⟨f.itinerary, j, List.mk_mem_zipIdx_iff_getElem?.mpr hmem, hfrequency ▸ habove, ?_⟩
    rw [← hfrequency]

end OffshoreFlights.MasterProgram
