import Mathlib.Data.Finset.Card
import OffshoreFlights.Proofs.Tour.Recall

/-! The work that a memory of tour lengths saves and the work that it takes. Every question is
answered from memory or by one search. No search for a set is made twice below the same bound: each
later one goes further than all before it, and what is known about a set only grows. -/

namespace OffshoreFlights

/-- A question to a memory: how long the shortest tour through some stops is, if it is shorter than
a bound. -/
structure TourQuestion (α : Type) where
  stops : List ℕ
  bound : α

/-- The set that a question is about. -/
def TourQuestion.key {α : Type} (q : TourQuestion α) : LocationSet := .ofList q.stops

/-- A memory, with the questions that it could not answer and searched for. -/
structure TourLedger (α : Type) where
  memory : TourMemory α
  searched : List (TourQuestion α)

variable {α : Type} [Scalar α]

/-- How what is known about a set may grow. -/
inductive TourFact.Grows : Option (TourFact α) → Option (TourFact α) → Prop
  | same (known : Option (TourFact α)) : Grows known known
  | learnt (fact : TourFact α) : Grows none (some fact)
  | raised {bound bound' : α} : bound < bound' →
    Grows (some (.noneBelow bound)) (some (.noneBelow bound'))
  | settled (bound length : α) : Grows (some (.noneBelow bound)) (some (.shortest length))

theorem TourFact.Grows.trans [Scalar.Lengths α] {a b c : Option (TourFact α)} (hab : Grows a b)
    (hbc : Grows b c) : Grows a c := by
  cases hab with
  | same => exact hbc
  | learnt =>
    cases hbc with
    | same => exact .learnt _
    | raised => exact .learnt _
    | settled => exact .learnt _
  | raised hlt =>
    cases hbc with
    | same => exact .raised hlt
    | raised hlt' => exact .raised (trans_of (· < ·) hlt hlt')
    | settled => exact .settled _ _
  | settled =>
    cases hbc with
    | same => exact .settled _ _

namespace TourMemory

/-- Asks questions in turn. -/
def askAll (distances : DistanceTable α) (memory : TourMemory α)
    (questions : List (TourQuestion α)) : Except Fault (TourMemory α) :=
  questions.foldlM
    (fun memory q => Prod.snd <$> memory.tourLengthChecked distances q.stops q.bound) memory

/-- What memory leaves undecided is unknown, or known for a lesser bound only. -/
theorem undecided {known : Option (TourFact α)} {bound : α} (h : decided? known bound = none) :
    known = none ∨ ∃ least, known = some (.noneBelow least) ∧ ¬bound ≤ least := by
  match known, h with
  | none, _ => exact .inl rfl
  | some (.noneBelow least), h =>
    refine .inr ⟨least, rfl, fun hle => ?_⟩
    simp [decided?, hle] at h

theorem lesson_cases (bound found : α) :
    (∃ length, lesson bound found = .shortest length) ∨ lesson bound found = .noneBelow bound := by
  unfold lesson
  split
  · exact .inl ⟨found, rfl⟩
  · exact .inr rfl

end TourMemory

/-- A question about stops that a table covers and a set can hold, with a number for its bound. -/
structure DistanceTable.Answers (distances : DistanceTable α) (q : TourQuestion α) : Prop where
  lt_size : ∀ i ∈ q.stops, i < distances.size
  lt_capacity : ∀ i ∈ q.stops, i < LocationSet.capacity
  bound : q.bound ≤ q.bound

theorem DistanceTable.Answers.exists_shortest {distances : DistanceTable α} {q : TourQuestion α}
    (h : distances.Answers q) :
    ∃ found, Tour.shortest distances.distanceChecked q.stops q.bound = .ok found := by
  by_cases hstops : q.stops = []
  · rw [hstops]
    exact ⟨0, rfl⟩
  · exact ⟨_, distances.shortest_eq hstops h.lt_size q.bound⟩

namespace TourLedger

/-- The ledger of a memory that knows nothing. -/
def start : TourLedger α := ⟨.empty, []⟩

/-- A search that is entered in a list. -/
def entered (distances : DistanceTable α) (stops : List ℕ) (bound : α) :
    StateT (List (TourQuestion α)) (Except Fault) α := fun searched => do
  let found ← Tour.shortest distances.distanceChecked stops bound
  return (found, searched ++ [⟨stops, bound⟩])

/-- Asks a question. -/
def ask (distances : DistanceTable α) (ledger : TourLedger α) (q : TourQuestion α) :
    Except Fault (α × TourLedger α) := do
  q.stops.forM LocationSet.checkId
  let ((answer, memory), searched) ←
    (ledger.memory.tourLength (entered distances) q.stops q.bound).run ledger.searched
  return (answer, ⟨memory, searched⟩)

/-- Asks questions in turn. -/
def askAll (distances : DistanceTable α) (ledger : TourLedger α)
    (questions : List (TourQuestion α)) : Except Fault (TourLedger α) :=
  questions.foldlM (fun ledger q => Prod.snd <$> ledger.ask distances q) ledger

/-- Entering the searches in a list changes nothing else. -/
theorem memory_ask (distances : DistanceTable α) (ledger : TourLedger α) (q : TourQuestion α) :
    Prod.map id memory <$> ledger.ask distances q =
      ledger.memory.tourLengthChecked distances q.stops q.bound := by
  unfold ask TourMemory.tourLengthChecked TourMemory.tourLength
  cases q.stops.forM LocationSet.checkId with
  | error fault => rfl
  | ok _ =>
    dsimp only
    cases TourMemory.decided? ledger.memory.facts[LocationSet.ofList q.stops]? q.bound with
    | some length => rfl
    | none =>
      simp only [bind, Except.bind, StateT.run, StateT.bind, entered]
      cases Tour.shortest distances.distanceChecked q.stops q.bound <;> rfl

/-- The ledger after a question that memory answers. -/
def remember (ledger : TourLedger α) : TourLedger α where
  memory := { ledger.memory with
    questions := ledger.memory.questions + 1
    recalled := ledger.memory.recalled + 1 }
  searched := ledger.searched

/-- The ledger after a question for which a search finds a length. -/
def learn (ledger : TourLedger α) (q : TourQuestion α) (found : α) : TourLedger α where
  memory := { ledger.memory with
    questions := ledger.memory.questions + 1
    searches := ledger.memory.searches + 1
    facts := ledger.memory.facts.insert q.key (TourMemory.lesson q.bound found) }
  searched := ledger.searched ++ [q]

omit [Scalar α] in
@[simp] theorem get?_remember (ledger : TourLedger α) (key : LocationSet) :
    ledger.remember.memory.get? key = ledger.memory.get? key := rfl

@[simp] theorem get?_learn_self (ledger : TourLedger α) (q : TourQuestion α) (found : α) :
    (ledger.learn q found).memory.get? q.key = some (TourMemory.lesson q.bound found) :=
  Std.HashMap.getElem?_insert_self

theorem get?_learn_of_ne (ledger : TourLedger α) {q : TourQuestion α} {key : LocationSet}
    (h : q.key ≠ key) (found : α) :
    (ledger.learn q found).memory.get? key = ledger.memory.get? key := by
  rw [TourMemory.get?, learn, Std.HashMap.getElem?_insert, if_neg (by simpa using h)]
  rfl

/-- What can come of a question: memory decides it, or a search teaches something. -/
inductive Asked (ledger : TourLedger α) (q : TourQuestion α) : TourLedger α → Prop
  | recalled {length : α} :
    TourMemory.decided? (ledger.memory.get? q.key) q.bound = some length →
      Asked ledger q ledger.remember
  | searched (found : α) :
    TourMemory.decided? (ledger.memory.get? q.key) q.bound = none →
      Asked ledger q (ledger.learn q found)

variable {distances : DistanceTable α} {ledger : TourLedger α} {q : TourQuestion α}

theorem exists_ask (ledger : TourLedger α) (h : distances.Answers q) :
    ∃ answer next, ledger.ask distances q = .ok (answer, next) ∧ Asked ledger q next := by
  obtain ⟨found, hfound⟩ := h.exists_shortest
  have hcheck : q.stops.forM LocationSet.checkId = .ok () := LocationSet.forM_checkId h.lt_capacity
  unfold ask TourMemory.tourLength
  rw [hcheck]
  cases hdecided : TourMemory.decided? ledger.memory.facts[LocationSet.ofList q.stops]? q.bound with
  | some length =>
    refine ⟨length, _, ?_, .recalled hdecided⟩
    simp only [hdecided]
    rfl
  | none =>
    refine ⟨found, _, ?_, .searched found hdecided⟩
    simp only [hdecided, bind, Except.bind, StateT.run, StateT.bind, entered, hfound]
    rfl

/-! ### What one question changes -/

theorem Asked.get?_of_ne {next : TourLedger α} (h : Asked ledger q next) {key : LocationSet}
    (hkey : q.key ≠ key) : next.memory.get? key = ledger.memory.get? key := by
  cases h with
  | recalled => exact ledger.get?_remember key
  | searched found _ => exact ledger.get?_learn_of_ne hkey found

/-- The bounds below which no tour is known to be are numbers. -/
def Numbers (ledger : TourLedger α) : Prop :=
  ∀ key bound, ledger.memory.get? key = some (.noneBelow bound) → bound ≤ bound

theorem Asked.numbers {next : TourLedger α} (h : Asked ledger q next) (hbound : q.bound ≤ q.bound)
    (hnumbers : ledger.Numbers) : next.Numbers := by
  intro key bound hknown
  cases h with
  | recalled => exact hnumbers key bound hknown
  | searched found _ =>
    by_cases hkey : q.key = key
    · subst hkey
      rw [get?_learn_self] at hknown
      rcases TourMemory.lesson_cases q.bound found with ⟨length, hlesson⟩ | hlesson
      · simp [hlesson] at hknown
      · obtain rfl : q.bound = bound := by simpa [hlesson] using hknown
        exact hbound
    · rw [get?_learn_of_ne ledger hkey] at hknown
      exact hnumbers key bound hknown

variable [Scalar.Lengths α]

theorem Asked.grows {next : TourLedger α} (h : Asked ledger q next) (hbound : q.bound ≤ q.bound)
    (hnumbers : ledger.Numbers) (key : LocationSet) :
    TourFact.Grows (ledger.memory.get? key) (next.memory.get? key) := by
  by_cases hkey : q.key = key
  · subst hkey
    cases h with
    | recalled => exact .same _
    | searched found hdecided =>
      rw [get?_learn_self]
      rcases TourMemory.undecided hdecided with hknown | ⟨least, hknown, hle⟩
      · rw [hknown]
        exact .learnt _
      · have hlt : least < q.bound :=
          Scalar.Lengths.lt_of_not_le hbound (hnumbers _ least hknown) hle
        rw [hknown]
        rcases TourMemory.lesson_cases q.bound found with ⟨length, hlesson⟩ | hlesson
        · rw [hlesson]
          exact .settled least length
        · rw [hlesson]
          exact .raised hlt
  · rw [h.get?_of_ne hkey]
    exact .same _

/-! ### What a run of questions changes -/

/-- What holds of a ledger after some questions. -/
structure Kept (ledger : TourLedger α) (asked : List (TourQuestion α)) : Prop where
  questions : ledger.memory.questions = asked.length
  answered : ledger.memory.questions = ledger.memory.recalled + ledger.memory.searches
  searches : ledger.memory.searches = ledger.searched.length
  sublist : ledger.searched.Sublist asked
  known : ∀ key, key ∈ ledger.memory.facts ↔ ∃ q ∈ asked, q.key = key
  size_le : ledger.memory.size ≤ ledger.memory.searches
  /-- A set that was searched for is known, and a bound below which no tour is known to be is the
  greatest bound of the searches. -/
  spent : ∀ q ∈ ledger.searched, ∃ fact, ledger.memory.get? q.key = some fact ∧
    ∀ bound, fact = .noneBelow bound → q.bound ≤ bound
  numbers : ledger.Numbers
  rising : ledger.searched.Pairwise fun q later => q.key = later.key → q.bound < later.bound

variable {asked : List (TourQuestion α)}

omit [Scalar.Lengths α] in
theorem kept_start : (start : TourLedger α).Kept [] where
  questions := rfl
  answered := rfl
  searches := rfl
  sublist := List.Sublist.refl []
  known key := by simp [start, TourMemory.empty]
  size_le := by simp [start, TourMemory.empty, TourMemory.size]
  spent := by simp [start]
  numbers key bound h := by simp [start, TourMemory.empty, TourMemory.get?] at h
  rising := List.Pairwise.nil

/-- A search that memory cannot spare goes further than all earlier ones for its set. -/
theorem Kept.bound_lt (hkept : ledger.Kept asked) (hbound : q.bound ≤ q.bound)
    (hdecided : TourMemory.decided? (ledger.memory.get? q.key) q.bound = none)
    {earlier : TourQuestion α} (hearlier : earlier ∈ ledger.searched) (hkey : earlier.key = q.key) :
    earlier.bound < q.bound := by
  obtain ⟨fact, hfact, hspent⟩ := hkept.spent earlier hearlier
  rw [hkey] at hfact
  rcases TourMemory.undecided hdecided with hknown | ⟨least, hknown, hle⟩
  · rw [hknown] at hfact
    cases hfact
  · rw [hknown] at hfact
    have hlt : least < q.bound :=
      Scalar.Lengths.lt_of_not_le hbound (hkept.numbers _ least hknown) hle
    exact Scalar.Lengths.lt_of_le_of_lt (hspent least (Option.some.inj hfact).symm) hlt

omit [Scalar.Lengths α] in
theorem Kept.remember (hkept : ledger.Kept asked) {length : α}
    (hdecided : TourMemory.decided? (ledger.memory.get? q.key) q.bound = some length) :
    ledger.remember.Kept (asked ++ [q]) := by
  have hknown : q.key ∈ ledger.memory.facts := by
    rw [Std.HashMap.mem_iff_isSome_getElem?]
    by_contra hnone
    rw [TourMemory.get?, Option.not_isSome_iff_eq_none.mp hnone] at hdecided
    cases hdecided
  obtain ⟨earlier, hearlier, hkey⟩ := (hkept.known _).mp hknown
  refine { hkept with
    questions := by simp [TourLedger.remember, hkept.questions]
    answered := ?_
    sublist := hkept.sublist.trans (List.sublist_append_left _ _)
    known := fun key => ?_ }
  · have := hkept.answered
    simp only [TourLedger.remember]
    omega
  · refine (hkept.known key).trans ⟨?_, ?_⟩
    · rintro ⟨p, hp, rfl⟩
      exact ⟨p, by simp [hp], rfl⟩
    · rintro ⟨p, hp, rfl⟩
      rcases List.mem_append.mp hp with hp | hp
      · exact ⟨p, hp, rfl⟩
      · obtain rfl := List.mem_singleton.mp hp
        exact ⟨earlier, hearlier, hkey⟩

theorem Kept.spent_learn (hkept : ledger.Kept asked) (hbound : q.bound ≤ q.bound)
    (hdecided : TourMemory.decided? (ledger.memory.get? q.key) q.bound = none) (found : α)
    {p : TourQuestion α} (hp : p ∈ (ledger.learn q found).searched) :
    ∃ fact, (ledger.learn q found).memory.get? p.key = some fact ∧
      ∀ bound, fact = .noneBelow bound → p.bound ≤ bound := by
  by_cases hkey : p.key = q.key
  · refine ⟨TourMemory.lesson q.bound found, by rw [hkey, get?_learn_self], fun bound hfact => ?_⟩
    obtain rfl : q.bound = bound := by
      rcases TourMemory.lesson_cases q.bound found with ⟨length, hlesson⟩ | hlesson
      · simp [hlesson] at hfact
      · simpa [hlesson] using hfact
    rcases List.mem_append.mp hp with hp | hp
    · exact Scalar.Lengths.le_of_lt (hkept.bound_lt hbound hdecided hp hkey)
    · obtain rfl := List.mem_singleton.mp hp
      exact hbound
  · rw [get?_learn_of_ne ledger (Ne.symm hkey)]
    rcases List.mem_append.mp hp with hp | hp
    · exact hkept.spent p hp
    · obtain rfl := List.mem_singleton.mp hp
      exact absurd rfl hkey

theorem Kept.learn (hkept : ledger.Kept asked) (hbound : q.bound ≤ q.bound)
    (hdecided : TourMemory.decided? (ledger.memory.get? q.key) q.bound = none) (found : α) :
    (ledger.learn q found).Kept (asked ++ [q]) where
  questions := by simp [TourLedger.learn, hkept.questions]
  answered := by
    have := hkept.answered
    simp only [TourLedger.learn]
    omega
  searches := by simp [TourLedger.learn, hkept.searches]
  sublist := hkept.sublist.append (List.Sublist.refl [q])
  known key := by
    simp only [TourLedger.learn, Std.HashMap.mem_insert, hkept.known, beq_iff_eq, List.mem_append,
      List.mem_singleton, or_and_right, exists_or, exists_eq_left]
    exact Or.comm
  size_le := Std.HashMap.size_insert_le.trans (Nat.succ_le_succ hkept.size_le)
  spent _ hp := hkept.spent_learn hbound hdecided found hp
  numbers := (Asked.searched found hdecided).numbers hbound hkept.numbers
  rising := by
    refine List.pairwise_append.mpr ⟨hkept.rising, List.pairwise_singleton _ _, ?_⟩
    intro earlier hearlier later hlater hkey
    obtain rfl := List.mem_singleton.mp hlater
    exact hkept.bound_lt hbound hdecided hearlier hkey

theorem Kept.step {next : TourLedger α} (hkept : ledger.Kept asked) (h : Asked ledger q next)
    (hbound : q.bound ≤ q.bound) : next.Kept (asked ++ [q]) := by
  cases h with
  | recalled hdecided => exact hkept.remember hdecided
  | searched found hdecided => exact hkept.learn hbound hdecided found

/-- Questions that a table covers are all answered, and what is known grows with them. -/
theorem Kept.exists_askAll (hkept : ledger.Kept asked) {questions : List (TourQuestion α)}
    (h : ∀ q ∈ questions, distances.Answers q) :
    ∃ last, ledger.askAll distances questions = .ok last ∧
      ledger.memory.askAll distances questions = .ok last.memory ∧
      last.Kept (asked ++ questions) ∧
      (∀ key, TourFact.Grows (ledger.memory.get? key) (last.memory.get? key)) ∧
      ∀ key, (∀ q ∈ questions, q.key ≠ key) →
        last.memory.get? key = ledger.memory.get? key := by
  induction questions generalizing ledger asked with
  | nil =>
    refine ⟨ledger, rfl, rfl, ?_, fun key => .same _, fun _ _ => rfl⟩
    rwa [List.append_nil]
  | cons q questions ih =>
    obtain ⟨hq, hquestions⟩ := List.forall_mem_cons.mp h
    obtain ⟨answer, next, hask, hnext⟩ := exists_ask ledger hq
    obtain ⟨last, hlast, hmemory, hkept', hgrows, hother⟩ :=
      ih (hkept.step hnext hq.bound) hquestions
    refine ⟨last, ?_, ?_, ?_, fun key => ?_, fun key hkey => ?_⟩
    · rw [askAll, List.foldlM_cons, hask]
      exact hlast
    · rw [TourMemory.askAll, List.foldlM_cons, ← memory_ask, hask]
      exact hmemory
    · rwa [List.append_assoc, List.singleton_append] at hkept'
    · exact (hnext.grows hq.bound hkept.numbers key).trans (hgrows key)
    · obtain ⟨hne, hkey⟩ := List.forall_mem_cons.mp hkey
      rw [hother key hkey, hnext.get?_of_ne hne]

omit [Scalar.Lengths α] in
/-- As many sets are known as were asked about. -/
theorem Kept.size_eq (hkept : ledger.Kept asked) (h : ∀ q ∈ asked, distances.Answers q) :
    ledger.memory.size = (asked.map fun q => q.stops.toFinset).toFinset.card := by
  have hdistinct : ledger.memory.facts.keys.Nodup :=
    Std.HashMap.distinct_keys.imp fun hne heq => by simp [heq] at hne
  have hkeys : ledger.memory.facts.keys.toFinset = (asked.map TourQuestion.key).toFinset := by
    ext key
    simp [Std.HashMap.mem_keys, hkept.known]
  have hmembers : (asked.map fun q => q.stops.toFinset).toFinset =
      (asked.map TourQuestion.key).toFinset.image LocationSet.members := by
    have hset : ∀ q ∈ asked, q.key.members = q.stops.toFinset :=
      fun q hq => LocationSet.members_ofList (h q hq).lt_capacity
    ext S
    simp only [List.mem_toFinset, List.mem_map, Finset.mem_image, exists_exists_and_eq_and]
    exact exists_congr fun q => and_congr_right fun hq => by rw [hset q hq]
  calc ledger.memory.size
      = ledger.memory.facts.keys.length := Std.HashMap.length_keys.symm
    _ = (asked.map TourQuestion.key).toFinset.card := by
        rw [← hkeys, List.toFinset_card_of_nodup hdistinct]
    _ = (asked.map fun q => q.stops.toFinset).toFinset.card := by
        rw [hmembers, Finset.card_image_of_injective _ LocationSet.members_injective]

/-- The accounts of a memory: what its counts say about the questions asked since it knew nothing
and the searches made for them. -/
structure Accounts (ledger : TourLedger α) (asked : List (TourQuestion α)) : Prop where
  questions : ledger.memory.questions = asked.length
  answered : ledger.memory.questions = ledger.memory.recalled + ledger.memory.searches
  searches : ledger.memory.searches = ledger.searched.length
  sublist : ledger.searched.Sublist asked
  size : ledger.memory.size = (asked.map fun q => q.stops.toFinset).toFinset.card
  size_le : ledger.memory.size ≤ ledger.memory.searches
  /-- Each search for a set goes further than all earlier ones. -/
  rising : ledger.searched.Pairwise fun q later =>
    q.stops.toFinset = later.stops.toFinset → q.bound < later.bound

omit [Scalar.Lengths α] in
theorem Kept.accounts (hkept : ledger.Kept asked) (h : ∀ q ∈ asked, distances.Answers q) :
    ledger.Accounts asked where
  questions := hkept.questions
  answered := hkept.answered
  searches := hkept.searches
  sublist := hkept.sublist
  size := hkept.size_eq h
  size_le := hkept.size_le
  rising := hkept.rising.imp fun hlt hset =>
    hlt (LocationSet.ofList_congr fun i => by
      rw [← List.mem_toFinset, hset, List.mem_toFinset])

end TourLedger

namespace TourLedger

/-- Whatever a memory was asked since it knew nothing, below any bounds that are numbers, its
accounts are in order. Whatever it is asked later, what is known about a set only grows, and by
questions about that set alone. -/
theorem accounts_askAll (distances : DistanceTable Float) (asked later : List (TourQuestion Float))
    (h : ∀ q ∈ asked ++ later, distances.Answers q) :
    ∃ ledger last, start.askAll distances asked = .ok ledger ∧
      ledger.askAll distances later = .ok last ∧
      TourMemory.empty.askAll distances asked = .ok ledger.memory ∧
      ledger.memory.askAll distances later = .ok last.memory ∧
      ledger.Accounts asked ∧ last.Accounts (asked ++ later) ∧
      (∀ key, TourFact.Grows (ledger.memory.get? key) (last.memory.get? key)) ∧
      ∀ key, (∀ q ∈ later, q.key ≠ key) →
        last.memory.get? key = ledger.memory.get? key := by
  have hasked : ∀ q ∈ asked, distances.Answers q := fun q hq => h q (List.mem_append_left later hq)
  have hlater : ∀ q ∈ later, distances.Answers q := fun q hq => h q (List.mem_append_right asked hq)
  obtain ⟨ledger, hledger, hmemory, hkept, -⟩ := kept_start.exists_askAll hasked
  obtain ⟨last, hlast, hmemory', hkept', hgrows, hother⟩ := hkept.exists_askAll hlater
  exact ⟨ledger, last, hledger, hlast, hmemory, hmemory', hkept.accounts hasked,
    hkept'.accounts h, hgrows, hother⟩

/-- Two stops below a bound that is too tight, and one stop. -/
def triangleAsked : List (TourQuestion Float) := [⟨[1, 2], 20⟩, ⟨[1], 100⟩]

/-- The two stops below a bound that memory answers for, and below a loose one. -/
def triangleLater : List (TourQuestion Float) := [⟨[2, 1], 15⟩, ⟨[2, 1], 100⟩]

theorem accounts_askAll_triangle :
    (∀ q ∈ triangleAsked ++ triangleLater, DistanceTable.triangle.Answers q) ∧
      ∃ ledger last, start.askAll .triangle triangleAsked = .ok ledger ∧
        ledger.askAll .triangle triangleLater = .ok last ∧
        TourMemory.empty.askAll .triangle triangleAsked = .ok ledger.memory ∧
        ledger.memory.askAll .triangle triangleLater = .ok last.memory ∧
        ledger.Accounts triangleAsked ∧ last.Accounts (triangleAsked ++ triangleLater) ∧
        (∀ key, TourFact.Grows (ledger.memory.get? key) (last.memory.get? key)) ∧
        ∀ key, (∀ q ∈ triangleLater, q.key ≠ key) →
          last.memory.get? key = ledger.memory.get? key := by
  have h : ∀ q ∈ triangleAsked ++ triangleLater, DistanceTable.triangle.Answers q := by
    have hbounds : ∀ q ∈ triangleAsked ++ triangleLater, q.bound ≤ q.bound := by decide +kernel
    have hsize : ∀ q ∈ triangleAsked ++ triangleLater,
        ∀ i ∈ q.stops, i < DistanceTable.triangle.size := by decide +kernel
    have hcapacity : ∀ q ∈ triangleAsked ++ triangleLater,
        ∀ i ∈ q.stops, i < LocationSet.capacity := by decide +kernel
    exact fun q hq => ⟨hsize q hq, hcapacity q hq, hbounds q hq⟩
  exact ⟨h, accounts_askAll .triangle triangleAsked triangleLater h⟩

end TourLedger

end OffshoreFlights
