import Mathlib.Data.List.Count
import Mathlib.Data.Rat.Floor
import OffshoreFlights.Lp.Scripted
import OffshoreFlights.MasterProgram
import OffshoreFlights.Proofs.Itinerary.Worth
import OffshoreFlights.Proofs.Lp.Program

/-! The columns of itineraries: the row of a platform holds the passengers served there, and the
rows of all others are left out. So the column of an itinerary has the same reduced cost at the
duals of the rows as the itinerary has at the duals of the locations. -/

namespace OffshoreFlights.Itinerary

/-! ### Entries -/

section Entries

variable {α : Type} [Scalar α]

/-- The rows of the platforms where somebody is served, in order. -/
def servedRows (it : Itinerary α) : List ℕ :=
  (List.range (it.allocation.length - 1)).filter fun row => 0 < it.servedAt (row + 1)

omit [Scalar α] in
theorem lt_length_of_servedAt_pos {it : Itinerary α} {i : ℕ} (h : 0 < it.servedAt i) :
    i < it.allocation.length := by
  by_contra hi
  rw [servedAt, List.getD_eq_default _ _ (not_lt.mp hi)] at h
  exact absurd h (lt_irrefl 0)

omit [Scalar α] in
theorem mem_servedRows {it : Itinerary α} {row : ℕ} :
    row ∈ it.servedRows ↔ 0 < it.servedAt (row + 1) := by
  rw [servedRows, List.mem_filter, List.mem_range, decide_eq_true_iff, and_iff_right_iff_imp]
  intro h
  have := lt_length_of_servedAt_pos h
  omega

omit [Scalar α] in
theorem nodup_servedRows (it : Itinerary α) : it.servedRows.Nodup := List.nodup_range.filter _

theorem entries_column (it : Itinerary α) :
    it.column.entries = it.servedRows.map fun row => (row, (it.servedAt (row + 1) : α)) := by
  have hplaces : it.allocation.tail.zipIdx =
      (List.range (it.allocation.length - 1)).map fun row => (it.servedAt (row + 1), row) := by
    refine List.ext_getElem (by simp) fun row hrow _ => ?_
    have hlength : row + 1 < it.allocation.length := by
      rw [List.length_zipIdx, List.length_tail] at hrow
      omega
    simp [servedAt, hlength]
  rw [column, hplaces, List.filter_map, List.map_map]
  rfl

theorem mem_entries_column {it : Itinerary α} {entry : ℕ × α} :
    entry ∈ it.column.entries ↔
      0 < it.servedAt (entry.1 + 1) ∧ entry.2 = (it.servedAt (entry.1 + 1) : α) := by
  obtain ⟨row, a⟩ := entry
  rw [entries_column, List.mem_map]
  constructor
  · rintro ⟨row, hrow, heq⟩
    obtain ⟨rfl, rfl⟩ := Prod.mk.inj heq
    exact ⟨mem_servedRows.mp hrow, rfl⟩
  · rintro ⟨hpos, heq⟩
    exact ⟨row, mem_servedRows.mpr hpos, Prod.ext rfl heq.symm⟩

/-- A row has one entry if somebody is served at its platform, and none otherwise. -/
theorem filter_entries_column (it : Itinerary α) (row : ℕ) :
    it.column.entries.filter (fun entry => entry.1 = row) =
      if 0 < it.servedAt (row + 1) then [(row, (it.servedAt (row + 1) : α))] else [] := by
  have hrow : it.servedRows.filter (fun other => other = row) =
      if 0 < it.servedAt (row + 1) then [row] else [] := by
    rw [List.filter_eq, (nodup_servedRows it).count]
    simp only [mem_servedRows]
    split <;> rfl
  rw [entries_column, List.filter_map]
  show (it.servedRows.filter fun other => other = row).map _ = _
  rw [hrow]
  split <;> rfl

end Entries

/-! ### Reduced costs -/

variable {K : Type} [Field K] [LinearOrder K] [FloorRing K]

theorem coefficient_column (it : Itinerary K) (row : ℕ) :
    it.column.coefficient row = (it.servedAt (row + 1) : K) := by
  rw [Lp.Column.coefficient, filter_entries_column]
  split
  next => simp
  next h => simp [Nat.eq_zero_of_not_pos h]

theorem reducedCost_column {it : Itinerary K} {rows : ℕ} (hlength : it.allocation.length = rows + 1)
    {duals : List K} (hdepot : duals.getD 0 0 = 0) :
    it.column.reducedCost rows (fun row => duals.getD (row + 1) 0) = it.reducedCost duals := by
  rw [reducedCost_eq_sum_range, hlength, Finset.sum_range_succ', hdepot, mul_zero, add_zero]
  simp only [Lp.Column.reducedCost, coefficient_column]
  rfl

theorem sum_entries_column {it : Itinerary K} {rows : ℕ} (hlength : it.allocation.length = rows + 1)
    (dual : ℕ → K) : (it.column.entries.map fun entry => entry.2 * dual entry.1).sum =
      ∑ row ∈ Finset.range rows, (it.servedAt (row + 1) : K) * dual row := by
  rw [entries_column, List.map_map]
  symm
  refine sum_range_eq_sum_map (nodup_servedRows it) (fun row hrow => ?_) fun row _ hout => ?_
  · have := lt_length_of_servedAt_pos (mem_servedRows.mp hrow)
    omega
  · rw [mem_servedRows, not_lt, Nat.le_zero] at hout
    rw [hout, Nat.cast_zero, zero_mul]

section MasterProgram

variable {L : Type} [Lp.Backend L K]

theorem getD_duals_zero (m : MasterProgram L K) : m.duals.getD 0 0 = 0 := rfl

theorem getD_duals_succ (m : MasterProgram L K) {row : ℕ} (hrow : row < m.basisSize) :
    m.duals.getD (row + 1) 0 = Lp.Backend.dual m.lp row := by
  rw [MasterProgram.duals, List.getD_cons_succ, List.getD_eq_getElem _ _ (by simpa using hrow),
    List.getElem_map, List.getElem_range]

/-- At the duals that the master program reads off its backend, whatever these are, an itinerary has
the reduced cost that its column has at the duals of the rows. Each platform served has one entry,
in its own row, and no other row has any; the depot has no row, and its dual is zero. -/
theorem reducedCost_duals (m : MasterProgram L K) {it : Itinerary K}
    (hlength : it.allocation.length = m.basisSize + 1) :
    it.reducedCost m.duals = it.column.cost -
      (it.column.entries.map fun entry => entry.2 * Lp.Backend.dual m.lp entry.1).sum ∧
    (∀ i, 1 ≤ i → 0 < it.servedAt i →
      it.column.entries.filter (fun entry => entry.1 = i - 1) = [(i - 1, (it.servedAt i : K))]) ∧
    ∀ entry ∈ it.column.entries, entry.1 < m.basisSize ∧ 0 < it.servedAt (entry.1 + 1) := by
  refine ⟨?_, fun i hi hserved => ?_, fun entry hentry => ?_⟩
  · rw [sum_entries_column hlength, reducedCost_eq_sum_range, hlength, Finset.sum_range_succ',
      getD_duals_zero, mul_zero, add_zero]
    refine congrArg (it.tourLength - ·) (Finset.sum_congr rfl fun row hrow => ?_)
    rw [getD_duals_succ m (Finset.mem_range.mp hrow)]
  · obtain ⟨row, rfl⟩ : ∃ row, i = row + 1 := ⟨i - 1, by omega⟩
    rw [Nat.add_sub_cancel, filter_entries_column, if_pos hserved]
  · have hserved := (mem_entries_column.mp hentry).1
    have := lt_length_of_servedAt_pos hserved
    exact ⟨by omega, hserved⟩

end MasterProgram

/-- Platforms whose duals differ, and one of them not served. -/
theorem reducedCost_duals_skipping :
    let lp : Lp.Scripted ℚ := ⟨3, [], [], 0, [], [5, 7, 11]⟩
    let it : Itinerary ℚ := ⟨[3, 1], 20, [0, 2, 0, 1]⟩
    it.allocation.length = (MasterProgram.start lp).basisSize + 1 ∧
    it.reducedCost (MasterProgram.start lp).duals = 20 - (2 * 5 + (1 * 11 + 0)) ∧
    it.column.entries.filter (fun entry => entry.1 = 2) = [(2, 1)] := by
  intro lp it
  have hlength : it.allocation.length = (MasterProgram.start lp).basisSize + 1 := rfl
  obtain ⟨hcost, hentries, -⟩ := reducedCost_duals (MasterProgram.start lp) hlength
  exact ⟨hlength, hcost.trans (by decide +kernel), (hentries 3 (by decide) (by decide)).trans
    (by decide +kernel)⟩

end OffshoreFlights.Itinerary
