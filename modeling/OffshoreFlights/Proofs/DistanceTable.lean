import Mathlib.Data.List.Basic
import Mathlib.Data.Nat.Basic
import Mathlib.Order.Basic
import OffshoreFlights.DistanceTable

/-! Tables of distances in place: cells are read and written by their places, each access is
checked, and the loops stop where the result is known. No access is out of range, and the results
are those of the tests on the whole table. -/

namespace OffshoreFlights

/-- Tests that meet no fault on a list are those without faults. -/
theorem allM_of_ok {β : Type} {xs : List β} {test : β → Except Fault Bool} {p : β → Bool}
    (h : ∀ x ∈ xs, test x = .ok (p x)) : xs.allM test = .ok (xs.all p) := by
  induction xs with
  | nil => rfl
  | cons x xs ih =>
    obtain ⟨hx, hxs⟩ := List.forall_mem_cons.mp h
    rw [List.allM, hx, List.all_cons]
    cases p x
    · rfl
    · exact ih hxs

theorem findSomeM?_of_ok {β γ : Type} {xs : List β} {find : β → Except Fault (Option γ)}
    {f : β → Option γ} (h : ∀ x ∈ xs, find x = .ok (f x)) :
    xs.findSomeM? find = .ok (xs.findSome? f) := by
  induction xs with
  | nil => rfl
  | cons x xs ih =>
    obtain ⟨hx, hxs⟩ := List.forall_mem_cons.mp h
    rw [List.findSomeM?, hx, List.findSome?_cons]
    cases f x
    · exact ih hxs
    · rfl

theorem mapM_of_ok {β γ : Type} {xs : List β} {f : β → Except Fault γ} {g : β → γ}
    (h : ∀ x ∈ xs, f x = .ok (g x)) : xs.mapM f = .ok (xs.map g) := by
  induction xs with
  | nil => rfl
  | cons x xs ih =>
    obtain ⟨hx, hxs⟩ := List.forall_mem_cons.mp h
    rw [List.mapM_cons, hx, ih hxs]
    rfl

namespace DistanceTable

variable {α : Type} [Scalar α]

/-! ### Places of cells -/

omit [Scalar α] in
theorem place_lt (m : DistanceTable α) {i j : ℕ} (hi : i < m.size) (hj : j < m.size) :
    i * m.size + j < m.cells.size := by
  rw [m.cells_size]
  calc i * m.size + j < i * m.size + m.size := Nat.add_lt_add_left hj _
    _ = (i + 1) * m.size := (Nat.succ_mul i m.size).symm
    _ ≤ m.size * m.size := Nat.mul_le_mul_right _ hi

/-- The place of a cell tells its row and its column. -/
theorem row_place {n i j : ℕ} (hj : j < n) : (i * n + j) / n = i := by
  rw [Nat.mul_comm, Nat.mul_add_div (Nat.zero_lt_of_lt hj), Nat.div_eq_of_lt hj, Nat.add_zero]

theorem column_place {n i j : ℕ} (hj : j < n) : (i * n + j) % n = j := by
  rw [Nat.mul_comm, Nat.mul_add_mod, Nat.mod_eq_of_lt hj]

theorem place_inj {n i j a b : ℕ} (hj : j < n) (hb : b < n) :
    i * n + j = a * n + b ↔ i = a ∧ j = b := by
  constructor
  · intro h
    constructor
    · rw [← row_place (i := i) hj, h, row_place hb]
    · rw [← column_place (i := i) hj, h, column_place hb]
  · rintro ⟨rfl, rfl⟩
    rfl

theorem distanceChecked_of_lt (m : DistanceTable α) {i j : ℕ} (hi : i < m.size) (hj : j < m.size) :
    m.distanceChecked i j = .ok (m.distance i j) := by
  have hplace := m.place_lt hi hj
  rw [distanceChecked, distance, Array.getD, dif_pos hplace, Array.getElem?_eq_getElem hplace]
  rfl

/-- A cell is replaced, and the others are left. -/
theorem setChecked_of_lt (m : DistanceTable α) {i j : ℕ} (hi : i < m.size) (hj : j < m.size)
    (d : α) : ∃ m', m.setChecked i j d = .ok m' ∧ m'.size = m.size ∧
      ∀ a b, a < m.size → b < m.size →
        m'.distance a b = if a = i ∧ b = j then d else m.distance a b := by
  have hplace := m.place_lt hi hj
  refine ⟨⟨m.size, m.cells.setIfInBounds (i * m.size + j) d, ?_⟩, ?_, rfl, fun a b ha hb => ?_⟩
  · rw [Array.size_setIfInBounds, m.cells_size]
  · rw [setChecked, if_pos hplace]
  · have hcell := m.place_lt ha hb
    simp only [distance, Array.getD, Array.size_setIfInBounds, hcell, dite_true,
      Array.getInternal_eq_getElem, Array.getElem_setIfInBounds hcell, place_inj hj hb, eq_comm]

/-- Tables of one size with the same distances are the same. -/
theorem eq_of_distance {m m' : DistanceTable α} (hsize : m.size = m'.size)
    (h : ∀ a b, a < m'.size → b < m'.size → m.distance a b = m'.distance a b) : m = m' := by
  obtain ⟨n, cells, hcells⟩ := m
  obtain ⟨n', cells', hcells'⟩ := m'
  obtain rfl : n = n' := hsize
  obtain rfl : cells = cells' := by
    refine Array.ext (hcells.trans hcells'.symm) fun k hk hk' => ?_
    have hn : 0 < n := by
      by_contra hzero
      rw [Nat.eq_zero_of_not_pos hzero] at hcells
      omega
    have hrow : k / n < n := Nat.div_lt_of_lt_mul (hcells ▸ hk)
    have hcell := h (k / n) (k % n) hrow (Nat.mod_lt k hn)
    simpa [distance, Array.getD, Nat.div_add_mod', hk, hk'] using hcell
  rfl

/-! ### Tests of the cells -/

/-- `zeroDiagonal` in place. -/
def zeroDiagonalInPlace (m : DistanceTable α) : Except Fault Bool :=
  (List.range m.size).allM fun i => do return (← m.distanceChecked i i) == 0

/-- `symmetricWithin` in place. Only the cells above the diagonal are gone through. -/
def symmetricInPlace (m : DistanceTable α) (tolerance : α) : Except Fault Bool :=
  (List.range m.size).allM fun i => (List.range' (i + 1) (m.size - (i + 1))).allM fun j => do
    let difference := (← m.distanceChecked i j) - (← m.distanceChecked j i)
    return !decide (tolerance < Scalar.magnitude difference)

/-- The first cell that is negative, infinite or undefined, in place. -/
def badCellInPlace? (m : DistanceTable α) : Except Fault (Option (ℕ × ℕ)) :=
  (List.range m.size).findSomeM? fun i => (List.range m.size).findSomeM? fun j => do
    let d ← m.distanceChecked i j
    return if Scalar.isFinite d = false ∨ d < 0 then some (i, j) else none

theorem zeroDiagonal_iff (m : DistanceTable α) : m.zeroDiagonal = true ↔
    ∀ i < m.size, (m.distance i i == 0) = true := by
  simp only [zeroDiagonal, List.all_eq_true, List.mem_range]

theorem symmetricWithin_iff (m : DistanceTable α) {tolerance : α} :
    m.symmetricWithin tolerance = true ↔ ∀ i j, i < j → j < m.size →
      ¬tolerance < Scalar.magnitude (m.distance i j - m.distance j i) := by
  simp only [symmetricWithin, List.all_eq_true, List.mem_range, Bool.not_eq_true',
    Bool.and_eq_false_iff, decide_eq_false_iff_not]
  constructor
  · intro h i j hij hj
    exact (h i (hij.trans hj) j hj).resolve_left (not_not.mpr hij)
  · intro h i _ j hj
    by_cases hij : i < j
    · exact .inr (h i j hij hj)
    · exact .inl hij

theorem zeroDiagonalInPlace_eq (m : DistanceTable α) :
    m.zeroDiagonalInPlace = .ok m.zeroDiagonal := by
  refine allM_of_ok fun i hi => ?_
  rw [List.mem_range] at hi
  rw [m.distanceChecked_of_lt hi hi]
  rfl

theorem symmetricInPlace_eq (m : DistanceTable α) (tolerance : α) :
    m.symmetricInPlace tolerance = .ok (m.symmetricWithin tolerance) := by
  have habove : m.symmetricInPlace tolerance = .ok ((List.range m.size).all fun i =>
      (List.range' (i + 1) (m.size - (i + 1))).all fun j =>
        !decide (tolerance < Scalar.magnitude (m.distance i j - m.distance j i))) := by
    refine allM_of_ok fun i hi => allM_of_ok fun j hj => ?_
    rw [List.mem_range] at hi
    rw [List.mem_range'_1] at hj
    rw [m.distanceChecked_of_lt hi (by omega), m.distanceChecked_of_lt (by omega) hi]
    rfl
  rw [habove, Except.ok.injEq, Bool.eq_iff_iff, symmetricWithin_iff]
  simp only [List.all_eq_true, List.mem_range, List.mem_range'_1, Bool.not_eq_true',
    decide_eq_false_iff_not]
  exact ⟨fun h i j hij hj => h i (by omega) j (by omega),
    fun h i _ j hj => h i j (by omega) (by omega)⟩

/-! ### Straight-line distances -/

section Filling

variable [SquareRoot α]

/-- Writes the straight-line distance of two locations in both directions. -/
def writeInPlace (platforms : List (Platform α)) (i : ℕ) (m : DistanceTable α) (j : ℕ) :
    Except Fault (DistanceTable α) := do
  let d := (← elementAt platforms i).distance (← elementAt platforms j)
  (← m.setChecked i j d).setChecked j i d

/-- The distances from a location to all that come after it. -/
def fillRowInPlace (platforms : List (Platform α)) (m : DistanceTable α) (i : ℕ) :
    Except Fault (DistanceTable α) :=
  (List.range' (i + 1) (platforms.length - (i + 1))).foldlM (writeInPlace platforms i) m

/-- `ofPlatforms` in place, from the table of zeros on. -/
def fillInPlace (platforms : List (Platform α)) : Except Fault (DistanceTable α) :=
  (List.range platforms.length).foldlM (fillRowInPlace platforms) (zeros platforms.length)

theorem distance_ofPlatforms_of_lt (platforms : List (Platform α)) {i j : ℕ}
    (hi : i < platforms.length) (hj : j < platforms.length) :
    (ofPlatforms platforms).distance i j =
      if i < j then (platforms.getD i .depot).distance (platforms.getD j .depot)
      else if j < i then (platforms.getD j .depot).distance (platforms.getD i .depot)
      else 0 := by
  have hplace := (ofPlatforms platforms).place_lt hi hj
  rw [distance, Array.getD, dif_pos hplace]
  simp only [ofPlatforms, Array.getInternal_eq_getElem, Array.getElem_ofFn, row_place hj,
    column_place hj]

theorem distance_ofPlatforms_self (platforms : List (Platform α)) {i : ℕ}
    (hi : i < platforms.length) : (ofPlatforms platforms).distance i i = 0 := by
  rw [distance_ofPlatforms_of_lt platforms hi hi, if_neg (lt_irrefl i), if_neg (lt_irrefl i)]

theorem distance_ofPlatforms_comm (platforms : List (Platform α)) {i j : ℕ}
    (hi : i < platforms.length) (hj : j < platforms.length) :
    (ofPlatforms platforms).distance i j = (ofPlatforms platforms).distance j i := by
  rw [distance_ofPlatforms_of_lt platforms hi hj, distance_ofPlatforms_of_lt platforms hj hi]
  rcases Nat.lt_trichotomy i j with h | rfl | h
  · rw [if_pos h, if_neg h.asymm, if_pos h]
  · rfl
  · rw [if_neg h.asymm, if_pos h, if_pos h]

/-- The rows before `i` of the target are filled in, and row `i` up to column `j`, all of it in both
directions. The other cells are zero. -/
structure Filled (target : DistanceTable α) (i j : ℕ) (m : DistanceTable α) : Prop where
  size : m.size = target.size
  distance (a b : ℕ) (ha : a < target.size) (hb : b < target.size) : m.distance a b =
    if min a b < i ∨ min a b = i ∧ max a b < j then target.distance a b else 0

variable {platforms : List (Platform α)} {m : DistanceTable α} {i j : ℕ}

theorem Filled.write (h : Filled (ofPlatforms platforms) i j m) (hij : i < j)
    (hj : j < platforms.length) :
    ∃ m', writeInPlace platforms i m j = .ok m' ∧ Filled (ofPlatforms platforms) i (j + 1) m' := by
  have hi : i < platforms.length := hij.trans hj
  have hsize : m.size = platforms.length := h.size
  have hwrite : ∀ d, ∃ m', ((m.setChecked i j d).bind fun m => m.setChecked j i d) = .ok m' ∧
      m'.size = m.size ∧ ∀ a b, a < m.size → b < m.size → m'.distance a b =
        if a = j ∧ b = i then d else if a = i ∧ b = j then d else m.distance a b := by
    intro d
    obtain ⟨m₁, hm₁, hsize₁, hdistance₁⟩ :=
      m.setChecked_of_lt (hsize ▸ hi) (hsize ▸ hj) d
    obtain ⟨m₂, hm₂, hsize₂, hdistance₂⟩ :=
      m₁.setChecked_of_lt (hsize₁ ▸ hsize ▸ hj) (hsize₁ ▸ hsize ▸ hi) d
    refine ⟨m₂, by rw [hm₁]; exact hm₂, hsize₂.trans hsize₁, fun a b ha hb => ?_⟩
    rw [hdistance₂ a b (hsize₁ ▸ ha) (hsize₁ ▸ hb), hdistance₁ a b ha hb]
  have hlocation (k : ℕ) (hk : k < platforms.length) :
      elementAt platforms k = .ok (platforms.getD k .depot) := by
    simp [elementAt, hk]
  obtain ⟨m', hm', hsize', hdistance⟩ :=
    hwrite ((platforms.getD i .depot).distance (platforms.getD j .depot))
  refine ⟨m', ?_, hsize'.trans h.size, fun a b ha hb => ?_⟩
  · rw [writeInPlace, hlocation i hi, hlocation j hj]
    exact hm'
  · have hlength : (ofPlatforms platforms).size = platforms.length := rfl
    rw [hlength] at ha hb
    rw [hdistance a b (hsize ▸ ha) (hsize ▸ hb), h.distance a b ha hb]
    by_cases hback : a = j ∧ b = i
    · obtain ⟨rfl, rfl⟩ := hback
      rw [if_pos ⟨rfl, rfl⟩, if_pos (by omega), distance_ofPlatforms_of_lt _ ha hb,
        if_neg (by omega), if_pos hij]
    by_cases hforth : a = i ∧ b = j
    · obtain ⟨rfl, rfl⟩ := hforth
      rw [if_neg hback, if_pos ⟨rfl, rfl⟩, if_pos (by omega), distance_ofPlatforms_of_lt _ ha hb,
        if_pos hij]
    rw [if_neg hback, if_neg hforth]
    refine if_congr ?_ rfl rfl
    omega

theorem Filled.write_all (h : Filled (ofPlatforms platforms) i (i + 1) m) {n : ℕ}
    (hn : i + 1 + n ≤ platforms.length) :
    ∃ m', (List.range' (i + 1) n).foldlM (writeInPlace platforms i) m = .ok m' ∧
      Filled (ofPlatforms platforms) i (i + 1 + n) m' := by
  induction n with
  | zero => exact ⟨m, rfl, h⟩
  | succ n ih =>
    obtain ⟨m₁, hm₁, hfilled₁⟩ := ih (by omega)
    obtain ⟨m₂, hm₂, hfilled₂⟩ := hfilled₁.write (by omega) (by omega)
    refine ⟨m₂, ?_, hfilled₂⟩
    rw [List.range'_1_concat, List.foldlM_append, hm₁]
    simp only [bind, Except.bind, List.foldlM_cons, hm₂]
    rfl

/-- A row is filled in up to the diagonal before it is begun. -/
theorem Filled.row (h : Filled (ofPlatforms platforms) i i m) (hi : i < platforms.length) :
    ∃ m', fillRowInPlace platforms m i = .ok m' ∧
      Filled (ofPlatforms platforms) (i + 1) (i + 1) m' := by
  have hbegun : Filled (ofPlatforms platforms) i (i + 1) m := by
    refine ⟨h.size, fun a b ha hb => ?_⟩
    rw [h.distance a b ha hb]
    by_cases hdiagonal : a = i ∧ b = i
    · obtain ⟨rfl, rfl⟩ := hdiagonal
      rw [distance_ofPlatforms_self _ hi, ite_self, ite_self]
    · refine if_congr ?_ rfl rfl
      omega
  obtain ⟨m', hm', hfilled⟩ := hbegun.write_all (n := platforms.length - (i + 1)) (by omega)
  refine ⟨m', hm', hfilled.size, fun a b ha hb => ?_⟩
  have hlength : (ofPlatforms platforms).size = platforms.length := rfl
  rw [hfilled.distance a b ha hb]
  rw [hlength] at ha hb
  refine if_congr ?_ rfl rfl
  omega

theorem filled_zeros (platforms : List (Platform α)) :
    Filled (ofPlatforms platforms) 0 0 (zeros platforms.length) := by
  refine ⟨rfl, fun a b ha hb => ?_⟩
  rw [if_neg (by omega)]
  simp [DistanceTable.distance, zeros, Array.getD]

/-- Filled in place, the table is that of the straight-line distances, and no access on the way is
out of range. -/
theorem fillInPlace_eq (platforms : List (Platform α)) :
    fillInPlace platforms = .ok (ofPlatforms platforms) := by
  have hrows : ∀ n ≤ platforms.length, ∃ m,
      (List.range n).foldlM (fillRowInPlace platforms) (zeros platforms.length) = .ok m ∧
        Filled (ofPlatforms platforms) n n m := by
    intro n
    induction n with
    | zero => exact fun _ => ⟨_, rfl, filled_zeros platforms⟩
    | succ n ih =>
      intro hn
      obtain ⟨m₁, hm₁, hfilled₁⟩ := ih (by omega)
      obtain ⟨m₂, hm₂, hfilled₂⟩ := hfilled₁.row (by omega)
      refine ⟨m₂, ?_, hfilled₂⟩
      rw [List.range_succ, List.foldlM_append, hm₁]
      simp only [bind, Except.bind, List.foldlM_cons, hm₂]
      rfl
  obtain ⟨m, hm, hfilled⟩ := hrows _ le_rfl
  rw [fillInPlace, hm, eq_of_distance hfilled.size fun a b ha hb => ?_]
  have hlength : (ofPlatforms platforms).size = platforms.length := rfl
  rw [hfilled.distance a b ha hb, if_pos (by omega)]

end Filling

end DistanceTable

end OffshoreFlights
