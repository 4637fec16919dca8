import OffshoreFlights.Proofs.DistanceTable
import OffshoreFlights.Proofs.Tour.Shortest
import OffshoreFlights.Tour.Memory

/-! Searches over a table that may not cover all stops. Where it covers them, the search goes the
same way as one over distances that are always there. -/

namespace OffshoreFlights.Tour

variable {α : Type} [Scalar α] {ask : ℕ → ℕ → Except Fault α} {d : ℕ → ℕ → α} {S : Set ℕ}

/-- Between the locations of a set, asking for a distance gives it. -/
def Covers (ask : ℕ → ℕ → Except Fault α) (d : ℕ → ℕ → α) (S : Set ℕ) : Prop :=
  ∀ i ∈ S, ∀ j ∈ S, ask i j = .ok (d i j)

theorem measureFrom_of_covers (h : Covers ask d S) (hdepot : 0 ∈ S) (wayBack best : α)
    (position : ℕ) (length : α) {place : ℕ} (hplace : place ∈ S) {order : List ℕ}
    (horder : ∀ i ∈ order, i ∈ S) :
    measureFrom ask wayBack best position length place order =
      .ok (measureFrom (m := Id) d wayBack best position length place order).run := by
  induction order generalizing position length place with
  | nil => rw [measureFrom, h place hplace 0 hdepot]; rfl
  | cons p rest ih =>
    obtain ⟨hp, hrest⟩ := List.forall_mem_cons.mp horder
    rw [measureFrom_cons, measureFrom, h place hplace p hp]
    simp only [bind, Except.bind]
    split
    · rfl
    · exact ih _ _ hp hrest

theorem probe_of_covers (h : Covers ask d S) (hdepot : 0 ∈ S) (wayBack best : α) {s : List ℕ}
    (hs : ∀ i ∈ s, i ∈ S) :
    probe ask wayBack best s = .ok (probe (m := Id) d wayBack best s).run := by
  match s with
  | [] => rfl
  | a :: rest =>
    obtain ⟨ha, hrest⟩ := List.forall_mem_cons.mp hs
    rw [probe_cons, probe]
    split
    · rw [h 0 hdepot a ha]
      simp only [bind, Except.bind]
      rw [measureFrom_of_covers h hdepot _ _ _ _ ha hrest]
      dsimp only
      split <;> simp_all <;> rfl
    · rfl

theorem search_of_covers (h : Covers ask d S) (hdepot : 0 ∈ S) (wayBack best : α) (steps : ℕ)
    {s : List ℕ} (hs : ∀ i ∈ s, i ∈ S) :
    search ask wayBack steps s best = .ok (search (m := Id) d wayBack steps s best).run := by
  induction steps generalizing s best with
  | zero => rfl
  | succ steps ih =>
    have hperm := probe_perm d wayBack best s
    have hnext := Arrangement.next?_spec (probe (m := Id) d wayBack best s).run.2
    rw [search_succ, search, probe_of_covers h hdepot wayBack best hs]
    simp only [bind, Except.bind, Arrangement.next]
    generalize (probe (m := Id) d wayBack best s).run = reached at *
    obtain ⟨best', reached⟩ := reached
    cases hu : Arrangement.next? reached with
    | some u =>
      rw [hu] at hnext
      exact ih best' fun i hi => hs i ((hnext.1.trans hperm).mem_iff.mp hi)
    | none => rfl

theorem nearest?_of_covers {place : ℕ} (hplace : place ∈ S) (h : Covers ask d S) {others : List ℕ}
    (hothers : ∀ i ∈ others, i ∈ S) :
    nearest? ask place others = .ok (nearest? (m := Id) d place others).run := by
  have hmap : others.mapM (ask place) = .ok (others.map (d place)) :=
    mapM_of_ok fun i hi => h place hplace i (hothers i hi)
  rw [nearest?_run, nearest?, hmap]
  rfl

theorem shortest_of_covers (h : Covers ask d S) (hdepot : 0 ∈ S) {stops : List ℕ}
    (hstops : ∀ i ∈ stops, i ∈ S) (bound : α) :
    shortest ask stops bound = .ok (shortest (m := Id) d stops bound).run := by
  have hsorted : ∀ i ∈ stops.mergeSort, i ∈ S :=
    fun i hi => hstops i ((List.mergeSort_perm stops _).mem_iff.mp hi)
  unfold shortest
  split
  · rfl
  · dsimp only
    rw [nearest?_of_covers hdepot h hsorted]
    exact search_of_covers h hdepot _ _ _ hsorted

end OffshoreFlights.Tour

namespace OffshoreFlights.DistanceTable

variable {α : Type} [Scalar α]

theorem distance_nonneg [Scalar.Lengths α] {distances : DistanceTable α}
    (h : ∀ cell ∈ distances.cells, 0 ≤ cell) (i j : ℕ) : 0 ≤ distances.distance i j := by
  unfold DistanceTable.distance Array.getD
  split
  next hcell => exact h _ (Array.getElem_mem hcell)
  next => exact Scalar.Lengths.zero_le_zero

/-- A table covers its own locations. -/
theorem covers (distances : DistanceTable α) :
    Tour.Covers distances.distanceChecked distances.distance {i | i < distances.size} :=
  fun _ hi _ hj => distances.distanceChecked_of_lt hi hj

/-- Over stops that a table covers, a search finds what it finds over distances that are always
there. -/
theorem shortest_eq (distances : DistanceTable α) {stops : List ℕ} (hstops : stops ≠ [])
    (hsize : ∀ i ∈ stops, i < distances.size) (bound : α) :
    Tour.shortest distances.distanceChecked stops bound =
      .ok (Tour.shortest (m := Id) distances.distance stops bound).run := by
  obtain ⟨i, hi⟩ := List.exists_mem_of_ne_nil _ hstops
  exact Tour.shortest_of_covers distances.covers (Nat.zero_lt_of_lt (hsize i hi)) hsize bound

end OffshoreFlights.DistanceTable
