import OffshoreFlights.Lp.Recorded
import OffshoreFlights.Planner
import OffshoreFlights.Proofs.ColumnGeneration.Pairs
import OffshoreFlights.Proofs.Number.Binary64

/-! Planners over many calls. A planner remembers tours from call to call, all of them learnt from
searches below the same bound. Such a memory answers as the search does, and so no call shows
whether the planner was used before. -/

namespace OffshoreFlights

/-! ### Memories filled below one bound -/

namespace TourMemory

variable {α : Type} [Scalar α] {p : Problem α} {bound : α} {memory : TourMemory α}

/-- All that is known about the tours of a problem was learnt from searches below one bound. -/
def LearntBelow (p : Problem α) (bound : α) (memory : TourMemory α) : Prop :=
  ∀ stops, p.Askable stops → stops ≠ [] → ∀ fact,
    memory.facts[LocationSet.ofList stops]? = some fact →
      fact = lesson bound (p.shortestTour stops bound).run

theorem learntBelow_empty : LearntBelow p bound .empty := by
  intro stops _ _ fact hfact
  simp [TourMemory.empty] at hfact

variable [IsStrictOrder α (· < ·)]

/-- What a search below a bound teaches gives its result back, when it is asked with that bound. -/
theorem eq_of_decided?_lesson {found answer : α} (hfound : found = bound ∨ found < bound)
    (h : decided? (some (lesson bound found)) bound = some answer) : answer = found := by
  unfold lesson at h
  split at h
  next hlt =>
    have hnot : ¬bound < found := fun hgt => irrefl_of (· < ·) found (trans_of (· < ·) hlt hgt)
    rw [decided?, Scalar.lesser, if_neg hnot] at h
    exact (Option.some.inj h).symm
  next hnot =>
    obtain rfl := hfound.resolve_right hnot
    rw [decided?, Option.ite_none_right_eq_some] at h
    exact (Option.some.inj h.2).symm

theorem LearntBelow.answer (h : memory.LearntBelow p bound) {stops : List ℕ}
    (hstops : p.Askable stops) (hne : stops ≠ []) :
    (memory.tourLength p.shortestTour stops bound).run.1 = (p.shortestTour stops bound).run := by
  rcases answer_cases p.shortestTour memory stops bound with hsearch | ⟨fact, hfact, hdecided⟩
  · exact hsearch
  · rw [h stops hstops hne fact hfact] at hdecided
    exact eq_of_decided?_lesson (Tour.shortest_eq_or_lt p.distance hne bound) hdecided

omit [IsStrictOrder α (· < ·)] in
theorem LearntBelow.learns (h : memory.LearntBelow p bound) {stops : List ℕ}
    (hstops : p.Askable stops) :
    (memory.tourLength p.shortestTour stops bound).run.2.LearntBelow p bound := by
  intro stops' hstops' hne' fact hfact
  rcases fact_cases hfact with hknown | ⟨hkey, rfl⟩
  · exact h stops' hstops' hne' fact hknown
  · have hperm : stops.Perm stops' := LocationSet.perm_of_ofList_eq hstops.nodup hstops'.nodup
      hstops.lt_capacity hstops'.lt_capacity hkey
    -- a set is asked about in different orders, which the search does not see
    have hfound : p.shortestTour stops bound = p.shortestTour stops' bound :=
      Tour.shortest_perm _ hperm bound
    rw [hfound]

/-- Two memories with nothing but what searches below one bound have taught. -/
def LearntAlike (p : Problem α) (bound : α) (memory memory' : TourMemory α) : Prop :=
  memory.LearntBelow p bound ∧ memory'.LearntBelow p bound

theorem simulation_learntAlike (p : Problem α) (bound : α) :
    Simulation p bound (LearntAlike p bound) := by
  rintro memory memory' stops ⟨h, h'⟩ hstops hne
  exact ⟨(h'.answer hstops hne).trans (h.answer hstops hne).symm, h.learns hstops,
    h'.learns hstops⟩

end TourMemory

/-! ### Under watch -/

/-- A chooser with the choices that it was given and what it chose, the latest first. -/
structure FlightChooser.Watched (S α : Type) where
  chooser : S
  choices : List (List (FractionalFlight α) × Except Fault ℕ)

namespace FlightChooser.Watched

variable {S α : Type} [FlightChooser S α]

/-- A chooser that has chosen nothing yet. -/
def start (chooser : S) : Watched S α := ⟨chooser, []⟩

instance : FlightChooser (Watched S α) α where
  choose w candidates :=
    let (choice, chooser) := choose w.chooser candidates
    (choice, ⟨chooser, (candidates, choice) :: w.choices⟩)

theorem simulation : Simulation α fun (w : Watched S α) (s : S) => s = w.chooser := by
  rintro w _ candidates rfl
  exact ⟨rfl, rfl⟩

end FlightChooser.Watched

theorem Lp.Recorded.simulation {L α : Type} [Lp.Backend L α] :
    Lp.Simulation fun (r : Lp.Recorded L α) (lp : L) => lp = r.backend where
  rowCount h := h ▸ rfl
  setRhs _ _ h := h ▸ rfl
  addColumn _ h := h ▸ rfl
  replaceColumn _ _ h := h ▸ rfl
  deleteColumns _ h := h ▸ rfl
  solve h := h ▸ ⟨rfl, rfl⟩
  objective h := h ▸ rfl
  primal _ h := h ▸ rfl
  dual _ h := h ▸ rfl

/-! ### Planners side by side -/

namespace Planner

variable {L M S T α : Type} [Scalar α] [Lp.Backend L α] [Lp.Backend M α] [FlightChooser S α]
  [FlightChooser T α]

/-- Planners for the same problem and settings with related memories. -/
structure Alike (A : TourMemory α → TourMemory α → Prop) (planner planner' : Planner α) :
    Prop where
  problem : planner'.problem = planner.problem
  settings : planner'.settings = planner.settings
  memory : A planner.memory planner'.memory

section Runs

variable {A : TourMemory α → TourMemory α → Prop} {planner planner' : Planner α}
  (h : planner.Alike A planner')
  (hA : TourMemory.Simulation planner.problem
    (planner.problem.range + planner.settings.rangeSlack) A)
  {R : L → M → Prop} (hR : Lp.Simulation R) {lp : L} {lp' : M} (hlp : R lp lp')

include h hA hR hlp

theorem Alike.relaxedPlan :
    (planner'.relaxedPlan lp').1 = (planner.relaxedPlan lp).1 ∧
      R (planner.relaxedPlan lp).2.1 (planner'.relaxedPlan lp').2.1 ∧
      (planner.relaxedPlan lp).2.2.Alike A (planner'.relaxedPlan lp').2.2 := by
  obtain ⟨problem, settings, memory⟩ := planner
  obtain ⟨problem', settings', memory'⟩ := planner'
  obtain ⟨rfl, rfl, hmemory⟩ := h
  have hstart : SolverState.Alike R A (⟨.start lp, memory⟩ : SolverState L α)
      ⟨.start lp', memory'⟩ := ⟨MasterProgram.Alike.start hR hlp, hmemory⟩
  obtain ⟨hresult, hfinal⟩ := SolverState.Alike.generate hR hA problem'.demands hstart
  unfold Planner.relaxedPlan Planner.solver
  dsimp only
  rw [hresult, hfinal.master.itineraries]
  exact ⟨rfl, hfinal.master.lp, rfl, rfl, hfinal.memory⟩

theorem Alike.wholePlan {C : S → T → Prop} (hC : FlightChooser.Simulation α C) {chooser : S}
    {chooser' : T} (hchooser : C chooser chooser') :
    (planner'.wholePlan lp' chooser').1 = (planner.wholePlan lp chooser).1 ∧
      R (planner.wholePlan lp chooser).2.1 (planner'.wholePlan lp' chooser').2.1 ∧
      C (planner.wholePlan lp chooser).2.2.1 (planner'.wholePlan lp' chooser').2.2.1 ∧
      (planner.wholePlan lp chooser).2.2.2.Alike A (planner'.wholePlan lp' chooser').2.2.2 := by
  obtain ⟨problem, settings, memory⟩ := planner
  obtain ⟨problem', settings', memory'⟩ := planner'
  obtain ⟨rfl, rfl, hmemory⟩ := h
  have hstart : SolverState.Alike R A (⟨.start lp, memory⟩ : SolverState L α)
      ⟨.start lp', memory'⟩ := ⟨MasterProgram.Alike.start hR hlp, hmemory⟩
  obtain ⟨hresult, hfinal, hleft⟩ := SolverState.Alike.wholePlan hR hA hC hstart hchooser
  exact ⟨hresult, hfinal.master.lp, hleft, rfl, rfl, hfinal.memory⟩

end Runs

/-! ### Calls -/

/-- A call to a planner: for a relaxed plan or a whole plan, with any backend and any way to choose,
or to forget the tours. -/
inductive Call (α : Type) : Type 1 where
  | relaxedPlan {L : Type} [Lp.Backend L α] (lp : L)
  | wholePlan {L S : Type} [Lp.Backend L α] [FlightChooser S α] (lp : L) (chooser : S)
  | forget

/-- What shows of a call: what it gives back, the backend with the requests made of it, and the
chooser with its choices. -/
def Call.Reply : Call α → Type
  | @relaxedPlan _ L _ _ => Except (Error α) (RelaxedPlan α) × Lp.Recorded L α
  | @wholePlan _ L S _ _ _ _ =>
    Except (Error α) (WholePlan α) × Lp.Recorded L α × FlightChooser.Watched S α
  | .forget => Unit

/-- What shows of a call to a planner. -/
def reply (planner : Planner α) : (call : Call α) → call.Reply
  | @Call.relaxedPlan _ L _ lp =>
    let (result, lp, _) := planner.relaxedPlan (Lp.Recorded.start lp : Lp.Recorded L α)
    (result, lp)
  | @Call.wholePlan _ L S _ _ lp chooser =>
    let (result, lp, chooser, _) := planner.wholePlan (Lp.Recorded.start lp : Lp.Recorded L α)
      (FlightChooser.Watched.start chooser : FlightChooser.Watched S α)
    (result, lp, chooser)
  | .forget => ()

/-- The planner after a call. -/
def after (planner : Planner α) : Call α → Planner α
  | @Call.relaxedPlan _ _ _ lp => (planner.relaxedPlan lp).2.2
  | @Call.wholePlan _ _ _ _ _ lp chooser => (planner.wholePlan lp chooser).2.2.2
  | .forget => planner.forget

/-- Under watch, a call gives back what it does alone, and leaves backend and chooser in the same
states. -/
theorem relaxedPlan_recorded (planner : Planner α) (lp : L) :
    let watched := planner.relaxedPlan (Lp.Recorded.start lp : Lp.Recorded L α)
    let alone := planner.relaxedPlan lp
    watched.1 = alone.1 ∧ watched.2.1.backend = alone.2.1 := by
  have halike : planner.Alike Eq planner := ⟨rfl, rfl, rfl⟩
  have hlp : lp = (Lp.Recorded.start lp : Lp.Recorded L α).backend := rfl
  obtain ⟨hresult, hlp, -⟩ := halike.relaxedPlan (TourMemory.simulation_eq _ _)
    Lp.Recorded.simulation hlp
  exact ⟨hresult.symm, hlp.symm⟩

theorem wholePlan_recorded (planner : Planner α) (lp : L) (chooser : S) :
    let watched := planner.wholePlan (Lp.Recorded.start lp : Lp.Recorded L α)
      (FlightChooser.Watched.start chooser : FlightChooser.Watched S α)
    let alone := planner.wholePlan lp chooser
    watched.1 = alone.1 ∧ watched.2.1.backend = alone.2.1 ∧
      watched.2.2.1.chooser = alone.2.2.1 := by
  have halike : planner.Alike Eq planner := ⟨rfl, rfl, rfl⟩
  have hlp : lp = (Lp.Recorded.start lp : Lp.Recorded L α).backend := rfl
  have hchooser : chooser =
    (FlightChooser.Watched.start chooser : FlightChooser.Watched S α).chooser := rfl
  obtain ⟨hresult, hlp, hchooser, -⟩ := halike.wholePlan (TourMemory.simulation_eq _ _)
    Lp.Recorded.simulation hlp FlightChooser.Watched.simulation hchooser
  exact ⟨hresult.symm, hlp.symm, hchooser.symm⟩

/-- A reply tells what the call does without a watch: what it gives back, and in which states it
leaves backend and chooser. -/
def Call.Tells (planner : Planner α) : (call : Call α) → call.Reply → Prop
  | @relaxedPlan _ _ _ lp, (result, recorded) =>
    result = (planner.relaxedPlan lp).1 ∧ recorded.backend = (planner.relaxedPlan lp).2.1
  | @wholePlan _ _ _ _ _ lp chooser, (result, recorded, watched) =>
    result = (planner.wholePlan lp chooser).1 ∧
      recorded.backend = (planner.wholePlan lp chooser).2.1 ∧
      watched.chooser = (planner.wholePlan lp chooser).2.2.1
  | .forget, _ => True

theorem tells_reply (planner : Planner α) (call : Call α) :
    call.Tells planner (planner.reply call) := by
  cases call with
  | relaxedPlan lp => exact planner.relaxedPlan_recorded lp
  | wholePlan lp chooser => exact planner.wholePlan_recorded lp chooser
  | forget => exact trivial

/-- A planner that has learnt only from its own calls. -/
structure Serves (problem : Problem α) (settings : Settings α) (planner : Planner α) : Prop where
  problem_eq : planner.problem = problem
  settings_eq : planner.settings = settings
  learnt : planner.memory.LearntBelow problem (problem.range + settings.rangeSlack)

section Serves

variable {problem : Problem α} {settings : Settings α} {planner planner' : Planner α}

theorem serves_start (problem : Problem α) (settings : Settings α) :
    (start problem settings).Serves problem settings :=
  ⟨rfl, rfl, TourMemory.learntBelow_empty⟩

theorem Serves.alike (h : planner.Serves problem settings) (h' : planner'.Serves problem settings) :
    planner.Alike (TourMemory.LearntAlike problem (problem.range + settings.rangeSlack)) planner' :=
  ⟨h'.problem_eq.trans h.problem_eq.symm, h'.settings_eq.trans h.settings_eq.symm, h.learnt,
    h'.learnt⟩

variable [IsStrictOrder α (· < ·)]

theorem Serves.simulation (h : planner.Serves problem settings) :
    TourMemory.Simulation planner.problem (planner.problem.range + planner.settings.rangeSlack)
      (TourMemory.LearntAlike problem (problem.range + settings.rangeSlack)) := by
  rw [h.problem_eq, h.settings_eq]
  exact TourMemory.simulation_learntAlike problem _

theorem Serves.after (h : planner.Serves problem settings) (call : Call α) :
    (planner.after call).Serves problem settings := by
  cases call with
  | relaxedPlan lp =>
    obtain ⟨-, -, hafter⟩ := (h.alike h).relaxedPlan h.simulation Lp.simulation_eq (Eq.refl lp)
    exact ⟨h.problem_eq, h.settings_eq, hafter.memory.1⟩
  | wholePlan lp chooser =>
    obtain ⟨-, -, -, hafter⟩ := (h.alike h).wholePlan h.simulation Lp.simulation_eq (Eq.refl lp)
      FlightChooser.simulation_eq (Eq.refl chooser)
    exact ⟨h.problem_eq, h.settings_eq, hafter.memory.1⟩
  | forget => exact ⟨h.problem_eq, h.settings_eq, TourMemory.learntBelow_empty⟩

theorem Serves.reply_eq (h : planner.Serves problem settings)
    (h' : planner'.Serves problem settings) (call : Call α) :
    planner'.reply call = planner.reply call := by
  cases call with
  | @relaxedPlan L _ lp =>
    obtain ⟨hresult, hlp, -⟩ := (h.alike h').relaxedPlan h.simulation Lp.simulation_eq
      (Eq.refl (Lp.Recorded.start lp : Lp.Recorded L α))
    exact Prod.ext hresult hlp.symm
  | @wholePlan L S _ _ lp chooser =>
    obtain ⟨hresult, hlp, hchooser, -⟩ := (h.alike h').wholePlan h.simulation Lp.simulation_eq
      (Eq.refl (Lp.Recorded.start lp : Lp.Recorded L α)) FlightChooser.simulation_eq
      (Eq.refl (FlightChooser.Watched.start chooser : FlightChooser.Watched S α))
    exact Prod.ext hresult (Prod.ext hlp.symm hchooser.symm)
  | forget => rfl

omit [IsStrictOrder α (· < ·)] in
theorem Serves.forget_eq (h : planner.Serves problem settings) :
    planner.forget = start problem settings := by
  rw [forget, h.problem_eq, h.settings_eq]
  rfl

/-- No call shows which calls were made before it. What shows is what the call does, watched or
not. -/
theorem reply_after_calls (problem : Problem α) (settings : Settings α) (earlier : List (Call α))
    (call : Call α) :
    let used := earlier.foldl Planner.after (start problem settings)
    used.reply call = (start problem settings).reply call ∧ call.Tells used (used.reply call) := by
  have hserves : ∀ planner : Planner α, planner.Serves problem settings →
      (earlier.foldl Planner.after planner).Serves problem settings := by
    induction earlier with
    | nil => exact fun _ h => h
    | cons first earlier ih => exact fun planner h => ih _ (h.after first)
  intro used
  exact ⟨(serves_start problem settings).reply_eq (hserves _ (serves_start problem settings)) call,
    used.tells_reply call⟩

end Serves

/-- A rounding after a relaxation that has asked for two tours, and after another rounding that the
backend has ended with an error. -/
theorem reply_after_calls_collinear :
    let planner := start Problem.collinear Collinear.settings
    let broken : Lp.Scripted ℚ := .start 3 [.failure "singular"]
    let failing : Call ℚ := .wholePlan broken ChooseMostFlown.mk
    let relaxation : Call ℚ := .relaxedPlan (Lp.Audited.start Collinear.lp)
    let rounding : Call ℚ := .wholePlan (Lp.Audited.start Collinear.lp) ChooseFirst.mk
    let used := [failing, .forget, relaxation].foldl after planner
    used.memory.get? (LocationSet.ofList [1]) = some (.shortest 4) ∧
      planner.memory.get? (LocationSet.ofList [1]) = none ∧
      used.reply rounding = planner.reply rounding ∧ rounding.Tells used (used.reply rounding) := by
  intro planner broken failing relaxation rounding used
  have hforgotten : (planner.after failing).after .forget = planner :=
    ((serves_start Problem.collinear Collinear.settings).after failing).forget_eq
  have hmemory : used.memory = Collinear.asked := by
    show (((planner.after failing).after .forget).after relaxation).memory = _
    rw [hforgotten]
    exact congrArg (·.2.memory) (Collinear.generate_early (.inl rfl))
  have hknown : Collinear.asked.get? (LocationSet.ofList [1]) = some (.shortest 4) := by
    have hother : LocationSet.ofList [1, 2] ≠ LocationSet.ofList [1] := by decide
    have hsearch : (Problem.collinear.shortestTour [1] (6 + 1)).run = 4 := by decide +kernel
    have hlesson : TourMemory.lesson ((6 : ℚ) + 1) 4 = .shortest 4 := if_pos (by decide +kernel)
    refine (TourMemory.fact_of_ne hother).trans ((TourMemory.fact_of_empty _ _ _).trans ?_)
    show some (TourMemory.lesson (6 + 1) (Problem.collinear.shortestTour [1] (6 + 1)).run) = _
    rw [hsearch, hlesson]
  refine ⟨hmemory ▸ hknown, ?_, reply_after_calls Problem.collinear Collinear.settings _ rounding⟩
  exact Std.HashMap.getElem?_empty

end Planner

end OffshoreFlights
