import OffshoreFlights.Pricing.Scan
import OffshoreFlights.Proofs.LocationSet
import OffshoreFlights.Proofs.Problem
import OffshoreFlights.Proofs.Tour.Shortest

/-! The memory of tour lengths over one problem. Whatever was asked before, all that the memory
knows is true, and so every question is answered as a search would answer it. -/

namespace OffshoreFlights

variable {K : Type} [Field K] [LinearOrder K] [FloorRing K]

/-- The length of the shortest closed tour through a set of locations of a problem. -/
def Problem.optimum (p : Problem K) (S : Finset ℕ) : K := Tour.optimum p.distance S

theorem Problem.optimum_nonneg [IsStrictOrderedRing K] (p : Problem K) (S : Finset ℕ) :
    0 ≤ p.optimum S := Tour.optimum_nonneg p.zero_le_distance S

/-- When no detour is a short cut, fewer stops make no shortest tour longer. -/
theorem Problem.Triangular.optimum_mono [IsStrictOrderedRing K] {p : Problem K}
    (h : p.Triangular) {A B : Finset ℕ} (hAB : A ⊆ B) (hB : ∀ i ∈ B, i ≤ p.platformCount) :
    p.optimum A ≤ p.optimum B :=
  Tour.optimum_mono (S := {i | i ≤ p.platformCount})
    (fun i hi j hj k hk => h i hi j hj k hk) (Nat.zero_le _) hAB hB

/-- A list of different locations of a problem. -/
structure Problem.Askable {α : Type} [Scalar α] (p : Problem α) (stops : List ℕ) : Prop where
  nodup : stops.Nodup
  located : ∀ i ∈ stops, i ≤ p.platformCount

theorem Problem.Askable.lt_capacity {α : Type} [Scalar α] {p : Problem α} {stops : List ℕ}
    (h : p.Askable stops) : ∀ i ∈ stops, i < LocationSet.capacity :=
  fun i hi => (h.located i hi).trans_lt p.platformCount_lt_capacity

/-- A memory that was filled by questions about tours of one problem, in any order and with any
bounds. -/
inductive TourMemory.FilledFrom {α : Type} [Scalar α] (p : Problem α) : TourMemory α → Prop
  | empty : FilledFrom p .empty
  | ask {memory : TourMemory α} {stops : List ℕ} (bound : α) :
    FilledFrom p memory → p.Askable stops →
      FilledFrom p (Id.run (memory.tourLength p.shortestTour stops bound)).2

/-- Whether what is known about the tours through a set is true. -/
def TourFact.Holds (p : Problem K) (S : Finset ℕ) : TourFact K → Prop
  | .shortest length => length = p.optimum S
  | .noneBelow bound => bound ≤ p.optimum S

namespace TourMemory

/-- All that a memory knows is true. -/
def Sound (p : Problem K) (memory : TourMemory K) : Prop :=
  ∀ (key : LocationSet) (fact : TourFact K), memory.facts[key]? = some fact →
    fact.Holds p key.members

section Generic

variable {α : Type} [Scalar α]

/-- The memory's answer to a question: from what it knows, or else by a search. -/
theorem tourLength_run (shortest : List ℕ → α → Id α) (memory : TourMemory α) (stops : List ℕ)
    (bound : α) :
    (memory.tourLength shortest stops bound).run =
      match decided? memory.facts[LocationSet.ofList stops]? bound with
      | some length =>
        (length, { memory with questions := memory.questions + 1, recalled := memory.recalled + 1 })
      | none =>
        ((shortest stops bound).run, { memory with
          questions := memory.questions + 1
          searches := memory.searches + 1
          facts := memory.facts.insert (LocationSet.ofList stops)
            (lesson bound (shortest stops bound).run) }) := by
  simp only [tourLength]
  cases decided? memory.facts[LocationSet.ofList stops]? bound <;> rfl

theorem answer_cases (shortest : List ℕ → α → Id α) (memory : TourMemory α) (stops : List ℕ)
    (bound : α) :
    (memory.tourLength shortest stops bound).run.1 = (shortest stops bound).run ∨
      ∃ fact, memory.facts[LocationSet.ofList stops]? = some fact ∧
        decided? (some fact) bound = some (memory.tourLength shortest stops bound).run.1 := by
  rw [tourLength_run]
  cases hfact : memory.facts[LocationSet.ofList stops]? with
  | none => exact .inl rfl
  | some fact =>
    cases hdecided : decided? (some fact) bound with
    | none => exact .inl rfl
    | some answer => exact .inr ⟨fact, rfl, hdecided⟩

/-- What is known after a question was known before, or is the lesson of its search. -/
theorem fact_cases {shortest : List ℕ → α → Id α} {memory : TourMemory α} {stops : List ℕ}
    {bound : α} {key : LocationSet} {fact : TourFact α}
    (h : (memory.tourLength shortest stops bound).run.2.facts[key]? = some fact) :
    memory.facts[key]? = some fact ∨
      LocationSet.ofList stops = key ∧ lesson bound (shortest stops bound).run = fact := by
  rw [tourLength_run] at h
  split at h
  next => exact .inl h
  next =>
    rw [Std.HashMap.getElem?_insert] at h
    split at h
    next hkey => exact .inr ⟨eq_of_beq hkey, Option.some.inj h⟩
    next => exact .inl h

/-- An answer depends on what is known about its set alone. -/
theorem answer_congr {shortest : List ℕ → α → Id α} {memory memory' : TourMemory α}
    {stops : List ℕ} {bound : α} (h : memory.facts[LocationSet.ofList stops]? =
      memory'.facts[LocationSet.ofList stops]?) :
    (memory.tourLength shortest stops bound).run.1 =
      (memory'.tourLength shortest stops bound).run.1 := by
  rw [tourLength_run, tourLength_run, h]
  split <;> rfl

/-- A question teaches nothing about other sets. -/
theorem fact_of_ne {shortest : List ℕ → α → Id α} {memory : TourMemory α} {stops : List ℕ}
    {bound : α} {key : LocationSet} (h : LocationSet.ofList stops ≠ key) :
    (memory.tourLength shortest stops bound).run.2.facts[key]? = memory.facts[key]? := by
  rw [tourLength_run]
  split
  · rfl
  · rw [Std.HashMap.getElem?_insert, if_neg (by simpa using h)]

/-- A memory that knows nothing learns the lesson of the search. -/
theorem fact_of_empty (shortest : List ℕ → α → Id α) (stops : List ℕ) (bound : α) :
    (TourMemory.empty.tourLength shortest stops bound).run.2.facts[LocationSet.ofList stops]? =
      some (lesson bound (shortest stops bound).run) := by
  rw [tourLength_run]
  simp [TourMemory.empty, decided?]

end Generic

variable {p : Problem K}

theorem members_of_askable {stops : List ℕ} (h : p.Askable stops) :
    (LocationSet.ofList stops).members = stops.toFinset :=
  LocationSet.members_ofList h.lt_capacity

theorem decided?_eq_min {S : Finset ℕ} {fact : TourFact K} (h : fact.Holds p S) {bound length : K}
    (hdecided : decided? (some fact) bound = some length) : length = min bound (p.optimum S) := by
  cases fact with
  | shortest known =>
    obtain rfl : Scalar.lesser known bound = length := by simpa [decided?] using hdecided
    rw [Scalar.lesser_exact, show known = p.optimum S from h, min_comm]
  | noneBelow least =>
    simp only [decided?, Option.ite_none_right_eq_some] at hdecided
    obtain ⟨hbound, hlength⟩ := hdecided
    obtain rfl := Option.some.inj hlength
    exact (min_eq_left (hbound.trans h)).symm

theorem lesson_holds {S : Finset ℕ} {bound found : K}
    (h : found = min bound (p.optimum S) ∨ found = p.optimum S) :
    (lesson bound found).Holds p S := by
  unfold lesson
  rcases h with rfl | rfl
  · split
    next h => exact min_eq_right ((min_lt_iff.mp h).resolve_left (lt_irrefl bound)).le
    next h => exact (le_min_iff.mp (not_lt.mp h)).2
  · split
    next => rfl
    next h => exact not_lt.mp h

variable [IsStrictOrderedRing K]

theorem shortestTour_run (hsymm : p.Symmetric) {stops : List ℕ} (h : p.Askable stops)
    (hne : stops ≠ []) (bound : K) :
    (p.shortestTour stops bound).run = min bound (p.optimum stops.toFinset) := by
  refine Tour.shortest_eq_min p.zero_le_distance hne h.nodup (fun i hi j hj => ?_) bound
  have hlocated : ∀ i ∈ 0 :: stops, i ≤ p.platformCount :=
    List.forall_mem_cons.mpr ⟨Nat.zero_le _, h.located⟩
  exact hsymm i (hlocated i hi) j (hlocated j hj)

theorem shortestTour_nil_run (p : Problem K) (bound : K) :
    (p.shortestTour [] bound).run = p.optimum ∅ := by
  have hempty := le_antisymm (Tour.optimum_le (d := p.distance) List.nodup_nil)
    (le_of_eq_of_le (p.distance_self (Nat.zero_le _)) (p.optimum_nonneg ∅))
  rw [List.toFinset_nil] at hempty
  exact (p.distance_self (Nat.zero_le _)).symm.trans hempty.symm

theorem Sound.learns {memory : TourMemory K} (hsymm : p.Symmetric) (hmemory : memory.Sound p)
    {stops : List ℕ} (h : p.Askable stops) (bound : K) :
    (memory.tourLength p.shortestTour stops bound).run.2.Sound p := by
  intro key fact hfact
  rcases fact_cases hfact with hknown | ⟨rfl, rfl⟩
  · exact hmemory key fact hknown
  · rw [members_of_askable h]
    apply lesson_holds
    by_cases hne : stops = []
    · subst hne
      exact .inr (shortestTour_nil_run p bound)
    · exact .inl (shortestTour_run hsymm h hne bound)

theorem Sound.tourLength {memory : TourMemory K} (hsymm : p.Symmetric) (hmemory : memory.Sound p)
    {stops : List ℕ} (h : p.Askable stops) (hne : stops ≠ []) (bound : K) :
    (memory.tourLength p.shortestTour stops bound).run.1 =
      min bound (p.optimum stops.toFinset) := by
  rcases answer_cases p.shortestTour memory stops bound with hsearch | ⟨fact, hfact, hdecided⟩
  · rw [hsearch]
    exact shortestTour_run hsymm h hne bound
  · have hmin := decided?_eq_min (hmemory _ fact hfact) hdecided
    rwa [members_of_askable h] at hmin

/-- Questions about a problem with symmetric distances teach nothing false. -/
theorem FilledFrom.sound (hsymm : p.Symmetric) {memory : TourMemory K} (h : memory.FilledFrom p) :
    memory.Sound p := by
  induction h with
  | empty =>
    intro key fact hfact
    simp [TourMemory.empty] at hfact
  | ask bound _ hstops ih => exact ih.learns hsymm hstops bound

end TourMemory

end OffshoreFlights
