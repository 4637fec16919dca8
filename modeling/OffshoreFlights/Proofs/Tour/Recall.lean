import OffshoreFlights.Proofs.Number.Binary64
import OffshoreFlights.Proofs.Tour.Checked
import OffshoreFlights.Proofs.Tour.Memory

/-! Memory of tour lengths, with sums that may be rounded and bounds that rise and fall. What the
memory knows about a set is true of the first of the shortest arrangements, on which the bounds have
no bearing, so it answers what a search would find. All of this needs legs home that are no shorter
than the legs out: for the way back, the search takes the least leg out. -/

namespace OffshoreFlights

open Tour (FirstShortest reckoned)

section Facts

variable {α : Type} [Scalar α] {d : ℕ → ℕ → α}

/-- Whether what is known agrees with the length of the shortest tour. -/
def TourFact.Agrees (length : α) : TourFact α → Prop
  | .shortest known => known = length
  | .noneBelow bound => ¬length < bound

namespace TourMemory

/-- All that is known about the tours through different locations agrees with the first of the
shortest arrangements. -/
def Agrees (d : ℕ → ℕ → α) (memory : TourMemory α) : Prop :=
  ∀ stops t : List ℕ, stops.Nodup → (∀ i ∈ stops, i < LocationSet.capacity) →
    FirstShortest d stops t → ∀ fact, memory.facts[LocationSet.ofList stops]? = some fact →
      fact.Agrees (reckoned d t)

theorem agrees_empty : Agrees d .empty := by
  intro stops t _ _ _ fact hfact
  simp [TourMemory.empty] at hfact

variable [Scalar.Lengths α]

open Scalar.Lengths

theorem lesson_agrees (length bound : α) :
    (lesson bound (if length < bound then length else bound)).Agrees length := by
  unfold lesson
  by_cases h : length < bound
  · rw [if_pos h, if_pos h]
    rfl
  · rw [if_neg h, if_neg (irrefl bound)]
    exact h

/-- An answer from memory is what a search would find. -/
theorem decided?_agrees {length bound answer : α} {fact : TourFact α} (hfact : fact.Agrees length)
    (hlength : length ≤ length) (hbound : bound ≤ bound)
    (h : decided? (some fact) bound = some answer) :
    (answer == if length < bound then length else bound) = true := by
  cases fact with
  | shortest known =>
    obtain rfl : known = length := hfact
    obtain rfl := Option.some.inj h
    unfold Scalar.lesser
    by_cases hlt : known < bound
    · rw [if_pos hlt, if_neg fun h => not_le_of_lt hlt (le_of_lt h)]
      exact beq_iff.mpr ⟨hlength, hlength⟩
    · rw [if_neg hlt]
      split
      · exact beq_iff.mpr ⟨hbound, hbound⟩
      next hle =>
        -- neither is less, so the two are equal as numbers
        have hge : bound ≤ known := by
          by_contra hn
          exact hlt (lt_of_not_le hbound hlength hn)
        have hle : known ≤ bound := by
          by_contra hn
          exact hle (lt_of_not_le hlength hbound hn)
        exact beq_iff.mpr ⟨hle, hge⟩
  | noneBelow least =>
    simp only [decided?, Option.ite_none_right_eq_some] at h
    obtain ⟨hle, hanswer⟩ := h
    obtain rfl := Option.some.inj hanswer
    rw [if_neg fun hlt => hfact (lt_of_lt_of_le hlt hle)]
    exact beq_iff.mpr ⟨hbound, hbound⟩

theorem Agrees.learns (hd : ∀ i j, 0 ≤ d i j) {memory : TourMemory α} (h : memory.Agrees d)
    {stops : List ℕ} (hnodup : stops.Nodup) (hlocated : ∀ i ∈ stops, i < LocationSet.capacity)
    (hhome : ∀ i ∈ stops, d 0 i ≤ d i 0) (bound : α) :
    (memory.tourLength (Tour.shortest (m := Id) d) stops bound).run.2.Agrees d := by
  intro stops' t hnodup' hlocated' ht fact hfact
  rcases fact_cases hfact with hknown | ⟨hkey, rfl⟩
  · exact h stops' t hnodup' hlocated' ht fact hknown
  · have hperm : stops'.Perm stops :=
      LocationSet.perm_of_ofList_eq hnodup' hnodup hlocated' hlocated hkey.symm
    rw [Tour.shortest_run hd (ht.of_perm hperm) hhome]
    exact lesson_agrees _ bound

section Answers

variable (hd : ∀ i j, 0 ≤ d i j) {memory : TourMemory α} (h : memory.Agrees d) {stops t : List ℕ}
  (ht : FirstShortest d stops t) (hnodup : stops.Nodup)
  (hlocated : ∀ i ∈ stops, i < LocationSet.capacity) (hhome : ∀ i ∈ stops, d 0 i ≤ d i 0)

include hd h ht hnodup hlocated hhome

/-- An answer is the length of the shortest tour, or the bound. -/
theorem Agrees.answer (bound : α) :
    (memory.tourLength (Tour.shortest (m := Id) d) stops bound).run.1 = reckoned d t ∨
      (memory.tourLength (Tour.shortest (m := Id) d) stops bound).run.1 = bound := by
  rcases answer_cases (Tour.shortest (m := Id) d) memory stops bound with
    hsearch | ⟨fact, hfact, hdecided⟩
  · rw [hsearch, Tour.shortest_run hd ht hhome]
    split
    · exact .inl rfl
    · exact .inr rfl
  · have hagrees := h stops t hnodup hlocated ht fact hfact
    cases fact with
    | shortest known =>
      obtain rfl : known = reckoned d t := hagrees
      rw [← Option.some.inj hdecided, Scalar.lesser]
      split
      · exact .inr rfl
      · exact .inl rfl
    | noneBelow least =>
      rw [decided?, Option.ite_none_right_eq_some] at hdecided
      exact .inr (Option.some.inj hdecided.2).symm

/-- Every answer is what a search would find. -/
theorem Agrees.answers {bound : α} (hbound : bound ≤ bound) :
    ((memory.tourLength (Tour.shortest (m := Id) d) stops bound).run.1 ==
      (Tour.shortest (m := Id) d stops bound).run) = true := by
  have hlength : reckoned d t ≤ reckoned d t := (le_self (Tour.reckoned_nonneg hd t)).2
  rcases answer_cases (Tour.shortest (m := Id) d) memory stops bound with
    hsearch | ⟨fact, hfact, hdecided⟩
  · rw [hsearch, Tour.shortest_run hd ht hhome]
    split
    · exact beq_iff.mpr ⟨hlength, hlength⟩
    · exact beq_iff.mpr ⟨hbound, hbound⟩
  · rw [Tour.shortest_run hd ht hhome]
    exact decided?_agrees (h stops t hnodup hlocated ht fact hfact) hlength hbound hdecided

end Answers

theorem FilledFrom.agrees {p : Problem α} (hhome : p.SlowHome) {memory : TourMemory α}
    (h : memory.FilledFrom p) : memory.Agrees p.distance := by
  induction h with
  | empty => exact agrees_empty
  | ask bound _ hstops ih =>
    exact ih.learns p.zero_le_distance hstops.nodup hstops.lt_capacity
      (fun i hi => hhome i (hstops.located i hi)) bound

end TourMemory

end Facts

/-! ### Memory over a table of floats -/

namespace DistanceTable

/-- No cell is negative or undefined. -/
def Nonnegative (distances : DistanceTable Float) : Prop := ∀ cell ∈ distances.cells, 0 ≤ cell

/-- No leg home is shorter than the leg out. -/
def SlowHome (distances : DistanceTable Float) : Prop :=
  ∀ i < distances.size, distances.distance 0 i ≤ distances.distance i 0

/-- A list of different locations of a table whose tours can be remembered. -/
structure Lists (distances : DistanceTable Float) (stops : List ℕ) : Prop where
  ne_nil : stops ≠ []
  nodup : stops.Nodup
  lt_size : ∀ i ∈ stops, i < distances.size
  lt_capacity : ∀ i ∈ stops, i < LocationSet.capacity

variable {distances : DistanceTable Float} {stops : List ℕ}

theorem Nonnegative.distance (h : distances.Nonnegative) (i j : ℕ) : 0 ≤ distances.distance i j :=
  distance_nonneg h i j

theorem Lists.shortest_eq (h : distances.Lists stops) (bound : Float) :
    Tour.shortest distances.distanceChecked stops bound =
      .ok (Tour.shortest (m := Id) distances.distance stops bound).run :=
  distances.shortest_eq h.ne_nil h.lt_size bound

theorem Lists.tourLength_eq (h : distances.Lists stops) (memory : TourMemory Float)
    (bound : Float) :
    memory.tourLengthChecked distances stops bound =
      .ok (memory.tourLength (Tour.shortest (m := Id) distances.distance) stops bound).run := by
  have hcheck : stops.forM LocationSet.checkId = .ok () := LocationSet.forM_checkId h.lt_capacity
  rw [TourMemory.tourLengthChecked, hcheck, TourMemory.tourLength_run]
  simp only [bind, Except.bind, TourMemory.tourLength, h.shortest_eq]
  split <;> simp_all <;> rfl

end DistanceTable

namespace TourMemory

variable {distances : DistanceTable Float}

/-- A memory that was filled by questions about the tours of one table, with any numbers for bounds,
and cleared at any times. -/
inductive Reached (distances : DistanceTable Float) : TourMemory Float → Prop
  | empty : Reached distances .empty
  | ask {memory memory' : TourMemory Float} {stops : List ℕ} {bound answer : Float} :
    Reached distances memory → distances.Lists stops → bound ≤ bound →
      memory.tourLengthChecked distances stops bound = .ok (answer, memory') →
        Reached distances memory'
  | clear {memory : TourMemory Float} : Reached distances memory → Reached distances .empty

/-- Each set about which something is known is that of some stops asked about, and what is known
agrees with the length of their shortest tour. -/
theorem Reached.agrees (hcells : distances.Nonnegative) (hhome : distances.SlowHome)
    {memory : TourMemory Float} (h : memory.Reached distances) :
    memory.Agrees distances.distance ∧ ∀ key fact, memory.get? key = some fact →
      ∃ stops, distances.Lists stops ∧ LocationSet.ofList stops = key := by
  have hempty : TourMemory.empty.Agrees distances.distance ∧
      ∀ key (fact : TourFact Float), TourMemory.empty.get? key = some fact →
        ∃ stops, distances.Lists stops ∧ LocationSet.ofList stops = key :=
    ⟨agrees_empty, fun key fact hfact => by simp [TourMemory.empty, get?] at hfact⟩
  induction h with
  | empty => exact hempty
  | clear => exact hempty
  | @ask memory memory' stops bound answer _ hstops _ hasked ih =>
    rw [hstops.tourLength_eq] at hasked
    have hmemory := congrArg Prod.snd (Except.ok.inj hasked)
    dsimp only at hmemory
    subst hmemory
    refine ⟨ih.1.learns hcells.distance hstops.nodup hstops.lt_capacity
      (fun i hi => hhome i (hstops.lt_size i hi)) bound, fun key fact hfact => ?_⟩
    rcases fact_cases hfact with hknown | ⟨hkey, -⟩
    · exact ih.2 key fact hknown
    · exact ⟨stops, hstops, hkey⟩

/-- A memory that answers every question as a search does, and that knows of each set what a search
without bound finds. -/
structure Transparent (distances : DistanceTable Float) (memory : TourMemory Float) : Prop where
  answers : ∀ stops bound, distances.Lists stops → bound ≤ bound → ∃ answer memory' found,
    memory.tourLengthChecked distances stops bound = .ok (answer, memory') ∧
      Tour.shortest distances.distanceChecked stops bound = .ok found ∧ (answer == found) = true
  knows : ∀ key fact, memory.get? key = some fact → ∃ stops length,
    distances.Lists stops ∧ LocationSet.ofList stops = key ∧
      Tour.shortest distances.distanceChecked stops Binary64.infinity = .ok length ∧
        fact.Agrees length

/-- When no leg home is shorter than the leg out, no history of questions and bounds shows in what
the memory answers. -/
theorem Reached.transparent (hcells : distances.Nonnegative) (hhome : distances.SlowHome)
    {memory : TourMemory Float} (h : memory.Reached distances) : memory.Transparent distances := by
  obtain ⟨hagrees, hlisted⟩ := h.agrees hcells hhome
  have hback : ∀ {stops : List ℕ}, distances.Lists stops →
      ∀ i ∈ stops, distances.distance 0 i ≤ distances.distance i 0 :=
    fun hstops i hi => hhome i (hstops.lt_size i hi)
  refine ⟨fun stops bound hstops hbound => ?_, fun key fact hfact => ?_⟩
  · obtain ⟨t, ht⟩ := Tour.exists_firstShortest hcells.distance hstops.ne_nil hstops.nodup
    exact ⟨_, _, _, hstops.tourLength_eq memory bound, hstops.shortest_eq bound,
      hagrees.answers hcells.distance ht hstops.nodup hstops.lt_capacity (hback hstops) hbound⟩
  · obtain ⟨stops, hstops, rfl⟩ := hlisted key fact hfact
    obtain ⟨t, ht⟩ := Tour.exists_firstShortest hcells.distance hstops.ne_nil hstops.nodup
    refine ⟨stops, reckoned distances.distance t, hstops, rfl, ?_,
      hagrees stops t hstops.nodup hstops.lt_capacity ht fact hfact⟩
    rw [hstops.shortest_eq, Tour.shortest_run hcells.distance ht (hback hstops)]
    split
    next => rfl
    next hlt => rw [Binary64.eq_infinity (Tour.reckoned_nonneg hcells.distance t) hlt]

end TourMemory

namespace TourMemory

/-- The memory after a bound that is too tight and then a loose one for the same two stops. -/
def tightThenLoose : TourMemory Float :=
  let search := Tour.shortest (m := Id) DistanceTable.triangle.distance
  (Id.run (tourLength search (Id.run (tourLength search .empty [1, 2] 20)).2 [2, 1] 100)).2

theorem transparent_triangle :
    DistanceTable.triangle.Nonnegative ∧ DistanceTable.triangle.SlowHome ∧
      tightThenLoose.Reached .triangle ∧ tightThenLoose.Transparent .triangle := by
  have hcells : DistanceTable.triangle.Nonnegative := by
    unfold DistanceTable.Nonnegative
    decide +kernel
  have hhome : DistanceTable.triangle.SlowHome := by
    unfold DistanceTable.SlowHome
    decide +kernel
  have hreached : tightThenLoose.Reached .triangle := by
    have houtward : DistanceTable.triangle.Lists [1, 2] := by
      constructor <;> decide
    have hback : DistanceTable.triangle.Lists [2, 1] := by
      constructor <;> decide
    exact .ask (.ask .empty houtward (by decide +kernel) (houtward.tourLength_eq .empty 20)) hback
      (by decide +kernel) (hback.tourLength_eq _ 100)
  exact ⟨hcells, hhome, hreached, hreached.transparent hcells hhome⟩

end TourMemory

/-- Two platforms one unit apart and one unit away from the depot, but for the way home from the
second one, which is shorter by less than the tolerance of problems. -/
def DistanceTable.downwind : DistanceTable Float :=
  ⟨3, #[0, 1, 1, 1, 0, 1, 0.9999999995343387, 1, 0], rfl⟩

namespace TourMemory

/-- The search gives up the only tour of the table, which ends with the leg home that is shorter
than all legs out, so the bound decides what is remembered. -/
theorem not_transparent_downwind :
    DistanceTable.downwind.Nonnegative ∧
      DistanceTable.downwind.symmetricWithin Problem.symmetryTolerance = true ∧
      ¬∀ memory : TourMemory Float, memory.Reached .downwind → memory.Transparent .downwind := by
  have hlists : DistanceTable.downwind.Lists [1, 2] := by
    constructor <;> decide
  have hsort : [1, 2].mergeSort = [1, 2] := by simp [List.mergeSort]
  have hbounded : (Tour.shortest (m := Id) DistanceTable.downwind.distance [1, 2]
      2.9999999997671694).run = 2.9999999997671694 := by
    rw [Tour.shortest, hsort]
    decide +kernel
  have hfree : (Tour.shortest (m := Id) DistanceTable.downwind.distance [1, 2]
      Binary64.infinity).run = 2.9999999995343387 := by
    rw [Tour.shortest, hsort]
    decide +kernel
  refine ⟨by unfold DistanceTable.Nonnegative; decide +kernel, by decide +kernel, fun h => ?_⟩
  have hreached : Reached .downwind (TourMemory.empty.tourLength
      (Tour.shortest (m := Id) DistanceTable.downwind.distance) [1, 2] 2.9999999997671694).run.2 :=
    .ask .empty hlists (by decide +kernel) (hlists.tourLength_eq .empty 2.9999999997671694)
  have hknown : (TourMemory.empty.tourLength
      (Tour.shortest (m := Id) DistanceTable.downwind.distance) [1, 2]
        2.9999999997671694).run.2.get? (.ofList [1, 2]) = some (.noneBelow 2.9999999997671694) := by
    have hlesson : lesson (2.9999999997671694 : Float) 2.9999999997671694 =
        .noneBelow 2.9999999997671694 := if_neg (irrefl _)
    rw [tourLength_run, hbounded, hlesson]
    simp [TourMemory.empty, decided?, get?]
  obtain ⟨stops, length, hstops, hkey, hlength, hagrees⟩ := (h _ hreached).knows _ _ hknown
  have hperm : stops.Perm [1, 2] := LocationSet.perm_of_ofList_eq hstops.nodup hlists.nodup
    hstops.lt_capacity hlists.lt_capacity hkey
  rw [Tour.shortest_perm _ hperm, hlists.shortest_eq, hfree] at hlength
  obtain rfl := Except.ok.inj hlength
  exact hagrees (by decide +kernel)

end TourMemory

end OffshoreFlights
