import Mathlib.Algebra.Order.BigOperators.Group.List
import Mathlib.Data.List.Sigma
import OffshoreFlights.Proofs.Lp.Duality
import OffshoreFlights.Proofs.Sums

/-! What the reduction of a linear program keeps. Values meet all rows exactly when they are zero in
the columns left out and meet the active rows in the others. So optimal values and duals of what is
left are optimal for the whole program, once zeros stand for what was left out; only in the columns
left out may the duals promise too much. -/

namespace OffshoreFlights.Lp

/-! ### Places -/

/-- The places of the elements of a list that are kept, in order. -/
def places {β : Type} (keep : β → Bool) (xs : List β) : List ℕ :=
  (xs.zipIdx.filter fun (x, _) => keep x).map Prod.snd

section Places

variable {β : Type} {keep : β → Bool} {xs : List β} {j : ℕ}

theorem mem_places : j ∈ places keep xs ↔ ∃ x, xs[j]? = some x ∧ keep x = true := by
  unfold places
  rw [List.mem_map]
  constructor
  · rintro ⟨⟨x, j⟩, hpair, rfl⟩
    obtain ⟨hmem, hkeep⟩ := List.mem_filter.mp hpair
    exact ⟨x, List.mk_mem_zipIdx_iff_getElem?.mp hmem, hkeep⟩
  · rintro ⟨x, hget, hkeep⟩
    exact ⟨(x, j), List.mem_filter.mpr ⟨List.mk_mem_zipIdx_iff_getElem?.mpr hget, hkeep⟩, rfl⟩

theorem lt_length_of_mem_places (h : j ∈ places keep xs) : j < xs.length := by
  obtain ⟨x, hget, -⟩ := mem_places.mp h
  exact (List.getElem?_eq_some_iff.mp hget).1

theorem nodup_places (keep : β → Bool) (xs : List β) : (places keep xs).Nodup :=
  (List.filter_sublist.map Prod.snd).nodup (List.nodup_zipIdx_map_snd xs)

end Places

section Spread

variable {α : Type} [Zero α] {indices : List ℕ} {n : ℕ}

/-- Values at the places of some indices, spread over all indices below a bound. -/
def spread (indices : List ℕ) (n : ℕ) (value : ℕ → α) : List α :=
  (List.range n).map fun j =>
    match indices.idxOf? j with
    | some k => value k
    | none => 0

theorem getD_spread (hnodup : indices.Nodup) (hlt : ∀ j ∈ indices, j < n) (value : ℕ → α) {k : ℕ}
    (hk : k < indices.length) : (spread indices n value).getD (indices.getD k 0) 0 = value k := by
  have hget : indices.getD k 0 = indices[k] := List.getD_eq_getElem _ _ hk
  have hplace : indices.idxOf? indices[k] = some k :=
    List.idxOf?_eq_some_iff.mpr ⟨hk, rfl, fun i hi heq =>
      absurd ((List.Nodup.getElem_inj_iff hnodup).mp heq) hi.ne⟩
  have hn := hlt _ (List.getElem_mem hk)
  rw [hget, spread, List.getD_eq_getElem _ _ (by simpa using hn), List.getElem_map,
    List.getElem_range, hplace]

theorem getD_spread_of_notMem {j : ℕ} (hj : j ∉ indices) (value : ℕ → α) :
    (spread indices n value).getD j 0 = 0 := by
  by_cases hn : j < n
  · rw [spread, List.getD_eq_getElem _ _ (by simpa using hn), List.getElem_map,
      List.getElem_range, List.idxOf?_eq_none_iff.mpr hj]
  · exact List.getD_eq_default _ _ (by simpa [spread] using hn)

end Spread

/-! ### What stays -/

namespace Program

section Kept

variable {α : Type} [Scalar α] (P : Program α)

/-- The indices of the columns that stay, in order. -/
def keptIndices : List ℕ := P.kept.map Prod.snd

theorem keptIndices_eq : P.keptIndices =
    places (fun c => !c.entries.any (blocks P.leftOut)) P.columns := rfl

theorem active_eq : P.active = places (fun out => !out) P.leftOut := rfl

variable {P}

theorem nodup_keptIndices : P.keptIndices.Nodup := by
  rw [keptIndices_eq]
  exact nodup_places _ _

theorem nodup_active : P.active.Nodup := nodup_places _ _

theorem lt_of_mem_keptIndices {j : ℕ} (h : j ∈ P.keptIndices) : j < P.columns.length := by
  rw [keptIndices_eq] at h
  exact lt_length_of_mem_places h

theorem lt_of_mem_active {row : ℕ} (h : row ∈ P.active) : row < P.rhs.length := by
  simpa [leftOut] using lt_length_of_mem_places h

theorem getD_leftOut {row : ℕ} (hrow : row < P.rhs.length) :
    P.leftOut.getD row false = P.forcesZero row (P.rhs.getD row 0) := by
  rw [leftOut, List.getD_eq_getElem _ _ (by simpa using hrow), List.getElem_map,
    List.getElem_zipIdx, List.getD_eq_getElem _ _ hrow]
  simp

theorem mem_active {row : ℕ} :
    row ∈ P.active ↔ row < P.rhs.length ∧ P.leftOut.getD row false = false := by
  have hlength : P.leftOut.length = P.rhs.length := by simp [leftOut]
  rw [active_eq, mem_places]
  constructor
  · rintro ⟨out, hget, hout⟩
    refine ⟨hlength ▸ (List.getElem?_eq_some_iff.mp hget).1, ?_⟩
    rw [List.getD_eq_getElem?_getD, hget]
    simpa using hout
  · rintro ⟨hrow, hout⟩
    rw [← hlength] at hrow
    rw [List.getD_eq_getElem _ _ hrow] at hout
    exact ⟨_, List.getElem?_eq_getElem hrow, by rw [hout]; rfl⟩

theorem mem_keptIndices {j : ℕ} : j ∈ P.keptIndices ↔ ∃ c, P.columns[j]? = some c ∧
    ∀ entry ∈ c.entries, blocks P.leftOut entry = false := by
  rw [keptIndices_eq, mem_places]
  simp

/-- The column of the reduced program at a place is that of the program at the index kept there. -/
theorem getElem?_reduced (k : ℕ) :
    P.reduced.columns[k]? = (P.keptIndices[k]?.bind (P.columns[·]?)).map (restrict P.active) := by
  show (P.kept.map _)[k]? = ((P.kept.map _)[k]?.bind _).map _
  rw [List.getElem?_map, List.getElem?_map]
  cases hget : P.kept[k]? with
  | none => rfl
  | some pair =>
    have hmem := List.mem_of_mem_filter (List.mem_of_getElem? hget)
    have hcolumn : P.columns[pair.2]? = some pair.1 := List.mk_mem_zipIdx_iff_getElem?.mp hmem
    simp only [Option.map_some, Option.bind_some, hcolumn]

theorem restrict_mem_reduced {j : ℕ} {c : Column α} (hj : j ∈ P.keptIndices)
    (hget : P.columns[j]? = some c) : restrict P.active c ∈ P.reduced.columns := by
  obtain ⟨k, hk, rfl⟩ := List.mem_iff_getElem.mp hj
  refine List.mem_of_getElem? (i := k) ?_
  rw [getElem?_reduced, List.getElem?_eq_getElem hk, Option.bind_some, hget, Option.map_some]

theorem length_reduced : P.reduced.columns.length = P.keptIndices.length := by
  simp [reduced, keptIndices]

theorem exists_getElem?_reduced {k : ℕ} (hk : k < P.reduced.columns.length) :
    ∃ c, P.columns[P.keptIndices.getD k 0]? = some c ∧
      P.reduced.columns[k]? = some (restrict P.active c) := by
  have hkept : k < P.keptIndices.length := by rwa [length_reduced] at hk
  have hj : P.keptIndices.getD k 0 = P.keptIndices[k] := List.getD_eq_getElem _ _ hkept
  obtain ⟨c, hget, -⟩ := mem_keptIndices.mp (List.getElem_mem hkept)
  refine ⟨c, hj ▸ hget, ?_⟩
  rw [getElem?_reduced, List.getElem?_eq_getElem hkept, Option.bind_some, hget, Option.map_some]

theorem length_rhs_reduced : P.reduced.rhs.length = P.active.length := by simp [reduced]

theorem getD_rhs_reduced {i : ℕ} (hi : i < P.active.length) :
    P.reduced.rhs.getD i 0 = P.rhs.getD (P.active.getD i 0) 0 := by
  rw [reduced, List.getD_eq_getElem _ _ (by simpa using hi), List.getElem_map,
    List.getD_eq_getElem P.active _ hi]

/-- Rows that exist are there when the reduction looks at them. -/
theorem rowsExist_of_lt (h : ∀ c ∈ P.columns, ∀ entry ∈ c.entries, entry.1 < P.rhs.length) :
    P.rowsExist = true := by
  refine List.all_eq_true.mpr fun c hc => ?_
  rw [Bool.and_eq_true, List.all_eq_true, List.all_eq_true]
  constructor
  · exact fun entry hentry => decide_eq_true (h c hc entry (List.mem_of_mem_filter hentry))
  · exact fun entry hentry =>
      decide_eq_true (h c hc entry ((List.takeWhile_sublist _).subset hentry))

/-- The verdicts, each with what it goes by. -/
inductive Rests (P : Program α) : Except Failure Unit → Prop
  | ok (hrows : P.active = [])
    (hcost : ∀ j ∈ P.keptIndices, ∀ c, P.columns[j]? = some c → ¬c.cost < 0) : P.Rests (.ok ())
  | freeColumn {j : ℕ} {c : Column α} (hrows : P.active = []) (hkept : j ∈ P.keptIndices)
    (hget : P.columns[j]? = some c) (hcost : c.cost < 0) : P.Rests (.error (.freeColumn j))
  | noCover (hrows : P.active ≠ []) (hcolumns : P.keptIndices = []) : P.Rests (.error .noCover)

theorem rests_of_verdict? {verdict : Except Failure Unit} (h : P.verdict? = some verdict) :
    P.Rests verdict := by
  have hcolumn : ∀ place ∈ P.kept, P.columns[place.2]? = some place.1 := fun place hplace =>
    List.mk_mem_zipIdx_iff_getElem?.mp (List.mem_of_mem_filter hplace)
  unfold verdict? at h
  split at h
  next hrows =>
    split at h
    next c j hfind =>
      obtain rfl := Option.some.inj h
      have hmem := List.mem_of_find?_eq_some hfind
      have hcost := List.find?_some hfind
      exact .freeColumn hrows (List.mem_map_of_mem hmem) (hcolumn _ hmem) (of_decide_eq_true hcost)
    next hfind =>
      obtain rfl := Option.some.inj h
      refine .ok hrows fun j hj c hget => ?_
      obtain ⟨place, hplace, rfl⟩ := List.mem_map.mp hj
      obtain rfl := Option.some.inj (hget.symm.trans (hcolumn place hplace))
      simpa using List.find?_eq_none.mp hfind place hplace
  next hrows =>
    split at h
    next hcolumns =>
      obtain rfl := Option.some.inj h
      refine .noCover hrows ?_
      rw [keptIndices, List.isEmpty_iff.mp hcolumns, List.map_nil]
    next => cases h

end Kept

end Program

/-! ### Coefficients -/

section Coefficients

variable {K : Type} [Field K] {c : Column K} {row : ℕ}

theorem Column.coefficient_eq_zero (h : ∀ entry ∈ c.entries, entry.1 = row → entry.2 = 0) :
    c.coefficient row = 0 := by
  refine List.sum_eq_zero fun a ha => ?_
  obtain ⟨entry, hentry, rfl⟩ := List.mem_map.mp ha
  obtain ⟨hmem, hrow⟩ := List.mem_filter.mp hentry
  exact h entry hmem (of_decide_eq_true hrow)

theorem coefficient_restrict {active : List ℕ} (hnodup : active.Nodup) (c : Column K) {i : ℕ}
    (hi : i < active.length) :
    (Program.restrict active c).coefficient i = c.coefficient (active.getD i 0) := by
  obtain ⟨cost, entries⟩ := c
  rw [List.getD_eq_getElem _ _ hi]
  unfold Program.restrict
  induction entries with
  | nil => rfl
  | cons entry entries ih =>
    simp only [List.filterMap_cons, Column.coefficient_cons, ← ih]
    cases hplace : active.idxOf? entry.1 with
    | none =>
      have hout : entry.1 ≠ active[i] := fun heq =>
        List.idxOf?_eq_none_iff.mp hplace (heq ▸ List.getElem_mem hi)
      simp only [Option.map_none, if_neg hout, zero_add]
    | some k =>
      obtain ⟨hk, hget, -⟩ := List.idxOf?_eq_some_iff.mp hplace
      simp only [Option.map_some, Column.coefficient_cons]
      congr 1
      rw [← hget]
      simp only [List.Nodup.getElem_inj_iff hnodup]

variable [LinearOrder K] [IsStrictOrderedRing K]

theorem Column.coefficient_nonneg (h : ∀ entry ∈ c.entries, entry.1 = row → 0 ≤ entry.2) :
    0 ≤ c.coefficient row := by
  refine List.sum_nonneg fun a ha => ?_
  obtain ⟨entry, hentry, rfl⟩ := List.mem_map.mp ha
  obtain ⟨hmem, hrow⟩ := List.mem_filter.mp hentry
  exact h entry hmem (of_decide_eq_true hrow)

theorem Column.le_coefficient (h : ∀ entry ∈ c.entries, entry.1 = row → 0 ≤ entry.2)
    {entry : ℕ × K} (hentry : entry ∈ c.entries) (hrow : entry.1 = row) :
    entry.2 ≤ c.coefficient row := by
  refine List.single_le_sum (fun a ha => ?_) _
    (List.mem_map_of_mem (List.mem_filter.mpr ⟨hentry, decide_eq_true hrow⟩))
  obtain ⟨other, hother, rfl⟩ := List.mem_map.mp ha
  obtain ⟨hmem, hrow⟩ := List.mem_filter.mp hother
  exact h other hmem (of_decide_eq_true hrow)

end Coefficients

namespace Program

/-! ### Values and duals of the reduced program -/

section Reduced

variable {K : Type} [Field K] [LinearOrder K] [FloorRing K] {P : Program K} {x : ℕ → K}

theorem leftOut_iff {row : ℕ} (hrow : row < P.rhs.length) :
    P.leftOut.getD row false = true ↔ P.rhs.getD row 0 = 0 ∧
      ∀ c ∈ P.columns, ∀ entry ∈ c.entries, entry.1 = row → 0 ≤ entry.2 := by
  rw [getD_leftOut hrow, forcesZero, Bool.and_eq_true, List.all_eq_true]
  refine and_congr beq_iff_eq (forall₂_congr fun c _ => ?_)
  rw [List.all_eq_true]
  refine forall₂_congr fun entry _ => ?_
  rw [Bool.not_eq_true', Bool.and_eq_false_iff, beq_eq_false_iff_ne, decide_eq_false_iff_not,
    not_lt, imp_iff_not_or]

/-- A column that stays has nothing in the rows left out. -/
theorem coefficient_eq_zero_of_mem_keptIndices {row j : ℕ} (hrow : row < P.rhs.length)
    (hout : P.leftOut.getD row false = true) (hj : j ∈ P.keptIndices) :
    P.coefficient row j = 0 := by
  obtain ⟨c, hget, hblocks⟩ := mem_keptIndices.mp hj
  rw [coefficient_of_getElem? hget]
  refine Column.coefficient_eq_zero fun entry hentry heq => le_antisymm ?_ ?_
  · have hopen := hblocks entry hentry
    rw [blocks, heq, hout, Bool.true_and, decide_eq_false_iff_not] at hopen
    exact not_lt.mp hopen
  · exact ((leftOut_iff hrow).mp hout).2 c (List.mem_of_getElem? hget) entry hentry heq

/-- Sums over all columns of what is zero in those left out. -/
theorem sum_columns {f : ℕ → K} (hf : ∀ j < P.columns.length, j ∉ P.keptIndices → f j = 0) :
    ∑ j ∈ Finset.range P.columns.length, f j =
      ∑ k ∈ Finset.range P.reduced.columns.length, f (P.keptIndices.getD k 0) := by
  rw [length_reduced]
  exact sum_range_eq_sum_places nodup_keptIndices (fun _ => lt_of_mem_keptIndices) hf

/-- Sums over all rows of what is zero in those left out. -/
theorem sum_rows {f : ℕ → K} (hf : ∀ row < P.rhs.length, row ∉ P.active → f row = 0) :
    ∑ row ∈ Finset.range P.rhs.length, f row =
      ∑ i ∈ Finset.range P.reduced.rhs.length, f (P.active.getD i 0) := by
  rw [length_rhs_reduced]
  exact sum_range_eq_sum_places nodup_active (fun _ => lt_of_mem_active) hf

theorem coefficient_reduced {i k : ℕ} (hi : i < P.active.length)
    (hk : k < P.reduced.columns.length) :
    P.reduced.coefficient i k = P.coefficient (P.active.getD i 0) (P.keptIndices.getD k 0) := by
  obtain ⟨c, hget, hget'⟩ := exists_getElem?_reduced hk
  rw [coefficient_of_getElem? hget, coefficient_of_getElem? hget',
    coefficient_restrict nodup_active c hi]

theorem cost_reduced {k : ℕ} (hk : k < P.reduced.columns.length) :
    P.reduced.cost k = P.cost (P.keptIndices.getD k 0) := by
  obtain ⟨c, hget, hget'⟩ := exists_getElem?_reduced hk
  rw [cost_of_getElem? hget, cost_of_getElem? hget']
  rfl

theorem row_reduced (hx : ∀ j < P.columns.length, j ∉ P.keptIndices → x j = 0) {i : ℕ}
    (hi : i < P.active.length) :
    ∑ j ∈ Finset.range P.columns.length, P.coefficient (P.active.getD i 0) j * x j =
      ∑ k ∈ Finset.range P.reduced.columns.length,
        P.reduced.coefficient i k * x (P.keptIndices.getD k 0) := by
  rw [sum_columns fun j hj hdropped => by rw [hx j hj hdropped, mul_zero]]
  exact Finset.sum_congr rfl fun k hk => by rw [coefficient_reduced hi (Finset.mem_range.mp hk)]

theorem objective_reduced (hx : ∀ j < P.columns.length, j ∉ P.keptIndices → x j = 0) :
    P.objective x = P.reduced.objective fun k => x (P.keptIndices.getD k 0) := by
  unfold objective
  rw [sum_columns fun j hj hdropped => by rw [hx j hj hdropped, mul_zero]]
  exact Finset.sum_congr rfl fun k hk => by rw [cost_reduced (Finset.mem_range.mp hk)]

/-- Where zero is the verdict without a solver, no column that stays has a negative cost. -/
theorem cost_nonneg_of_verdict? (h : P.verdict? = some (.ok ())) {j : ℕ} (hj : j ∈ P.keptIndices)
    {c : Column K} (hget : P.columns[j]? = some c) : 0 ≤ c.cost := by
  cases rests_of_verdict? h with
  | ok _ hcost => exact not_lt.mp (hcost j hj c hget)

section Ordered

variable [IsStrictOrderedRing K]

theorem coefficient_nonneg_of_leftOut {row : ℕ} (hrow : row < P.rhs.length)
    (hout : P.leftOut.getD row false = true) (j : ℕ) : 0 ≤ P.coefficient row j := by
  unfold coefficient
  cases hget : P.columns[j]? with
  | none => exact le_rfl
  | some c =>
    exact Column.coefficient_nonneg (((leftOut_iff hrow).mp hout).2 c (List.mem_of_getElem? hget))

/-- A column left out has something in a row left out. -/
theorem exists_coefficient_pos {j : ℕ} (hj : j < P.columns.length) (hdropped : j ∉ P.keptIndices) :
    ∃ row < P.rhs.length, P.leftOut.getD row false = true ∧ 0 < P.coefficient row j := by
  have hget : P.columns[j]? = some P.columns[j] := List.getElem?_eq_getElem hj
  rw [mem_keptIndices] at hdropped
  push Not at hdropped
  obtain ⟨entry, hentry, hblocks⟩ := hdropped _ hget
  rw [ne_eq, Bool.not_eq_false, blocks, Bool.and_eq_true, decide_eq_true_iff] at hblocks
  obtain ⟨hout, hpos⟩ := hblocks
  have hrow : entry.1 < P.rhs.length := by
    by_contra hrow
    rw [List.getD_eq_default _ _ (by simpa [leftOut] using hrow)] at hout
    cases hout
  refine ⟨entry.1, hrow, hout, ?_⟩
  rw [coefficient_of_getElem? hget]
  exact hpos.trans_le (Column.le_coefficient
    (((leftOut_iff hrow).mp hout).2 _ (List.getElem_mem hj)) hentry rfl)

/-- Values that meet the rows left out are zero in the columns left out. -/
theorem IsFeasible.eq_zero_of_notMem (hx : P.IsFeasible x) {j : ℕ} (hj : j < P.columns.length)
    (hdropped : j ∉ P.keptIndices) : x j = 0 := by
  obtain ⟨row, hrow, hout, hpos⟩ := exists_coefficient_pos hj hdropped
  have hsum := hx.meets row hrow
  rw [((leftOut_iff hrow).mp hout).1, Finset.sum_eq_zero_iff_of_nonneg fun j hj =>
    mul_nonneg (coefficient_nonneg_of_leftOut hrow hout j)
      (hx.nonneg j (Finset.mem_range.mp hj))] at hsum
  exact (mul_eq_zero.mp (hsum j (Finset.mem_range.mpr hj))).resolve_left hpos.ne'

/-- Values meet all rows exactly when they are zero in the columns left out and meet the active rows
in the others. -/
theorem isFeasible_iff_reduced : P.IsFeasible x ↔
    (∀ j < P.columns.length, j ∉ P.keptIndices → x j = 0) ∧
      P.reduced.IsFeasible fun k => x (P.keptIndices.getD k 0) := by
  constructor
  · intro hx
    have hzero : ∀ j < P.columns.length, j ∉ P.keptIndices → x j = 0 :=
      fun j hj => hx.eq_zero_of_notMem hj
    refine ⟨hzero, fun k hk => ?_, fun i hi => ?_⟩
    · obtain ⟨c, hget, -⟩ := exists_getElem?_reduced hk
      exact hx.nonneg _ (List.getElem?_eq_some_iff.mp hget).1
    · rw [length_rhs_reduced] at hi
      rw [← row_reduced hzero hi, getD_rhs_reduced hi, List.getD_eq_getElem _ _ hi]
      exact hx.meets _ (lt_of_mem_active (List.getElem_mem hi))
  · rintro ⟨hzero, hx⟩
    constructor
    · intro j hj
      by_cases hkept : j ∈ P.keptIndices
      · obtain ⟨k, hk, rfl⟩ := List.mem_iff_getElem.mp hkept
        rw [← List.getD_eq_getElem _ 0 hk]
        exact hx.nonneg k (by rwa [length_reduced])
      · exact (hzero j hj hkept).ge
    · intro row hrow
      by_cases hactive : row ∈ P.active
      · obtain ⟨i, hi, rfl⟩ := List.mem_iff_getElem.mp hactive
        rw [← List.getD_eq_getElem _ 0 hi, row_reduced hzero hi,
          hx.meets i (by rwa [length_rhs_reduced]), getD_rhs_reduced hi]
      · have hout : P.leftOut.getD row false = true := by
          rw [mem_active, not_and, Bool.not_eq_false] at hactive
          exact hactive hrow
        rw [((leftOut_iff hrow).mp hout).1]
        refine Finset.sum_eq_zero fun j hj => ?_
        by_cases hkept : j ∈ P.keptIndices
        · rw [coefficient_eq_zero_of_mem_keptIndices hrow hout hkept, zero_mul]
        · rw [hzero j (Finset.mem_range.mp hj) hkept, mul_zero]

end Ordered

/-! ### Solutions spread over the whole program -/

theorem getD_spreadDuals (duals : List K) {i : ℕ} (hi : i < P.active.length) :
    (P.spreadDuals duals).getD (P.active.getD i 0) 0 = duals.getD i 0 :=
  getD_spread nodup_active (fun _ => lt_of_mem_active) (fun i => duals.getD i 0) hi

theorem getD_spreadDuals_of_notMem (duals : List K) {row : ℕ} (hrow : row ∉ P.active) :
    (P.spreadDuals duals).getD row 0 = 0 :=
  getD_spread_of_notMem hrow fun i => duals.getD i 0

theorem getD_spreadPrimal {primal : List K} {k : ℕ} (hk : k < P.keptIndices.length)
    (hprimal : 0 ≤ primal.getD k 0) :
    (P.spreadPrimal primal).getD (P.keptIndices.getD k 0) 0 = primal.getD k 0 := by
  refine (getD_spread nodup_keptIndices (fun _ => lt_of_mem_keptIndices)
    (fun k => if 0 < primal.getD k 0 then primal.getD k 0 else 0) hk).trans ?_
  split
  next => rfl
  next hpos => exact le_antisymm hprimal (not_lt.mp hpos)

theorem getD_spreadPrimal_of_notMem (primal : List K) {j : ℕ} (hj : j ∉ P.keptIndices) :
    (P.spreadPrimal primal).getD j 0 = 0 :=
  getD_spread_of_notMem hj fun k => if 0 < primal.getD k 0 then primal.getD k 0 else 0

/-- Any column has the same reduced cost at the spread duals as what stays of it at the duals of the
active rows. -/
theorem reducedCost_spreadDuals (c : Column K) (duals : List K) :
    c.reducedCost P.rhs.length (fun row => (P.spreadDuals duals).getD row 0) =
      (restrict P.active c).reducedCost P.reduced.rhs.length fun i => duals.getD i 0 := by
  unfold Column.reducedCost
  dsimp only
  rw [sum_rows fun row _ hrow => by rw [getD_spreadDuals_of_notMem duals hrow, mul_zero]]
  congr 1
  refine Finset.sum_congr rfl fun i hi => ?_
  have hi : i < P.active.length := length_rhs_reduced (P := P) ▸ Finset.mem_range.mp hi
  rw [getD_spreadDuals duals hi, coefficient_restrict nodup_active c hi]

theorem worth_spreadDuals (duals : List K) :
    P.worth (fun row => (P.spreadDuals duals).getD row 0) =
      P.reduced.worth fun i => duals.getD i 0 := by
  unfold worth
  dsimp only
  rw [sum_rows fun row _ hrow => by rw [getD_spreadDuals_of_notMem duals hrow, mul_zero]]
  refine Finset.sum_congr rfl fun i hi => ?_
  have hi : i < P.active.length := length_rhs_reduced (P := P) ▸ Finset.mem_range.mp hi
  rw [getD_spreadDuals duals hi, getD_rhs_reduced hi]

theorem keptCost_eq (primal : List K) :
    P.keptCost primal = P.reduced.objective fun k => primal.getD (P.keptIndices.getD k 0) 0 := by
  have hsum : P.keptCost primal =
      (P.kept.map fun place => place.1.cost * primal.getD place.2 0).sum := Scalar.sum_exact _
  have hmap : (P.kept.map fun place => place.1.cost * primal.getD place.2 0) =
      P.keptIndices.map fun j => P.cost j * primal.getD j 0 := by
    rw [keptIndices, List.map_map]
    refine List.map_congr_left fun place hplace => ?_
    have hmem := List.mem_of_mem_filter hplace
    rw [Function.comp_apply, cost_of_getElem? (List.mk_mem_zipIdx_iff_getElem?.mp hmem)]
  rw [hsum, hmap, objective, length_reduced,
    ← sum_range_getD P.keptIndices 0 fun j => P.cost j * primal.getD j 0]
  refine Finset.sum_congr rfl fun k hk => ?_
  rw [cost_reduced (by rw [length_reduced]; exact Finset.mem_range.mp hk)]

end Reduced

end Program

end OffshoreFlights.Lp
