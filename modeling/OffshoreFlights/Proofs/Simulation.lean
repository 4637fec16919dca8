import OffshoreFlights.Proofs.Rounding.Rounds

/-! Two runs side by side: over backends that answer alike, on memories that answer alike about the
tours of a problem, with choosers that choose alike. The runs pass through the same itineraries,
sets and rounds, and end with the same result. -/

namespace OffshoreFlights

variable {L M S T α : Type} [Scalar α] [Lp.Backend L α] [Lp.Backend M α] [FlightChooser S α]
  [FlightChooser T α]

/-- A relation between the states of two backends that every request keeps. Related states give the
same answers. -/
structure Lp.Simulation (R : L → M → Prop) : Prop where
  rowCount : ∀ {l m}, R l m → Backend.rowCount m = Backend.rowCount l
  setRhs : ∀ {l m} row value, R l m → R (Backend.setRhs l row value) (Backend.setRhs m row value)
  addColumn : ∀ {l m} column, R l m → R (Backend.addColumn l column) (Backend.addColumn m column)
  replaceColumn : ∀ {l m} index column, R l m →
    R (Backend.replaceColumn l index column) (Backend.replaceColumn m index column)
  deleteColumns : ∀ {l m} indices, R l m →
    R (Backend.deleteColumns l indices) (Backend.deleteColumns m indices)
  solve : ∀ {l m}, R l m → (Backend.solve m).1 = (Backend.solve l).1 ∧
    R (Backend.solve l).2 (Backend.solve m).2
  objective : ∀ {l m}, R l m → Backend.objective m = Backend.objective l
  primal : ∀ {l m} index, R l m → Backend.primal m index = Backend.primal l index
  dual : ∀ {l m} row, R l m → Backend.dual m row = Backend.dual l row

/-- A relation between memories that every question about the tours of a problem keeps, when it is
asked with a certain bound. Related memories give the same answers. -/
def TourMemory.Simulation (p : Problem α) (bound : α)
    (A : TourMemory α → TourMemory α → Prop) : Prop :=
  ∀ memory memory' stops, A memory memory' → p.Askable stops → stops ≠ [] →
      (memory'.tourLength p.shortestTour stops bound).run.1 =
        (memory.tourLength p.shortestTour stops bound).run.1 ∧
      A (memory.tourLength p.shortestTour stops bound).run.2
        (memory'.tourLength p.shortestTour stops bound).run.2

variable (α) in
/-- A relation between the states of two choosers that every choice keeps. Related states choose the
same flights. -/
def FlightChooser.Simulation (C : S → T → Prop) : Prop :=
  ∀ s t (candidates : List (FractionalFlight α)), C s t →
    (choose t candidates).1 = (choose s candidates).1 ∧
      C (choose s candidates).2 (choose t candidates).2

omit [Scalar α] in
theorem Lp.simulation_eq : Lp.Simulation (Eq (α := L)) where
  rowCount h := h ▸ rfl
  setRhs _ _ h := h ▸ rfl
  addColumn _ h := h ▸ rfl
  replaceColumn _ _ h := h ▸ rfl
  deleteColumns _ h := h ▸ rfl
  solve h := h ▸ ⟨rfl, rfl⟩
  objective h := h ▸ rfl
  primal _ h := h ▸ rfl
  dual _ h := h ▸ rfl

theorem TourMemory.simulation_eq (p : Problem α) (bound : α) : Simulation p bound Eq := by
  rintro memory _ stops rfl _ _
  exact ⟨rfl, rfl⟩

omit [Scalar α] in
theorem FlightChooser.simulation_eq : Simulation α (Eq (α := S)) := by
  rintro s _ candidates rfl
  exact ⟨rfl, rfl⟩

/-! ### States side by side -/

section Alike

variable (R : L → M → Prop) (A : TourMemory α → TourMemory α → Prop) (C : S → T → Prop)

/-- Master programs that hold the same itineraries over related backends. -/
structure MasterProgram.Alike (m : MasterProgram L α) (m' : MasterProgram M α) : Prop where
  lp : R m.lp m'.lp
  itineraries : m'.itineraries = m.itineraries
  known : m'.known = m.known
  basisSize : m'.basisSize = m.basisSize

structure SolverState.Alike (st : SolverState L α) (st' : SolverState M α) : Prop where
  master : st.master.Alike R st'.master
  memory : A st.memory st'.memory

structure Pricing.Scan.Alike (scan : Pricing.Scan L α) (scan' : Pricing.Scan M α) : Prop where
  walk : scan'.walk = scan.walk
  extend : scan'.extend = scan.extend
  added : scan'.added = scan.added
  state : scan.state.Alike R A scan'.state

structure ColumnGeneration.Alike (g : ColumnGeneration L α) (g' : ColumnGeneration M α) :
    Prop where
  iterations : g'.iterations = g.iterations
  columnsAdded : g'.columnsAdded = g.columnsAdded
  order : g'.order = g.order
  state : g.state.Alike R A g'.state

structure Rounding.Alike (r : Rounding L S α) (r' : Rounding M T α) : Prop where
  residual : r'.residual = r.residual
  remaining : r'.remaining = r.remaining
  plan : r'.plan = r.plan
  bound : r'.bound = r.bound
  rounds : r'.rounds = r.rounds
  solver : r.solver.Alike R A r'.solver
  chooser : C r.chooser r'.chooser

end Alike

/-! ### The master program -/

namespace MasterProgram.Alike

variable {R : L → M → Prop} {m : MasterProgram L α} {m' : MasterProgram M α}
  (hR : Lp.Simulation R) (h : m.Alike R m')

include hR

omit [Scalar α] in
theorem start {lp : L} {lp' : M} (h : R lp lp') :
    (MasterProgram.start lp : MasterProgram L α).Alike R (MasterProgram.start lp') :=
  ⟨h, rfl, rfl, hR.rowCount h⟩

include h

theorem resetRow (p : Problem α) (residual : List ℕ) (j : ℕ) :
    (MasterProgram.resetRow p residual m j).Alike R (MasterProgram.resetRow p residual m' j) := by
  obtain ⟨lp', itineraries, known, basisSize⟩ := m'
  obtain ⟨hlp, rfl, rfl, rfl⟩ := h
  have hrhs := hR.setRhs (j - 1) ((residual.getD j 0 : ℕ) : α) hlp
  unfold MasterProgram.resetRow
  dsimp only
  split
  · exact ⟨hR.replaceColumn _ _ hrhs, rfl, rfl, rfl⟩
  · exact ⟨hR.addColumn _ hrhs, rfl, rfl, rfl⟩

theorem reset (p : Problem α) (residual : List ℕ) :
    (m.reset p residual).Alike R (m'.reset p residual) := by
  have hfold : ∀ (rows : List ℕ) {m : MasterProgram L α} {m' : MasterProgram M α}, m.Alike R m' →
      (rows.foldl (MasterProgram.resetRow p residual) m).Alike R
        (rows.foldl (MasterProgram.resetRow p residual) m') := by
    intro rows
    induction rows with
    | nil => exact fun h => h
    | cons j rows ih => exact fun h => ih (h.resetRow hR p residual j)
  obtain ⟨hlp, hitineraries, -, hbasisSize⟩ :=
    hfold ((List.range p.platformCount).map (· + 1)) h
  have hknown := congrArg (fun its : List (Itinerary α) =>
    Std.HashSet.ofList (its.map Itinerary.allocation)) hitineraries
  exact ⟨hlp, hitineraries, hknown, hbasisSize⟩

theorem add (it : Itinerary α) :
    (m'.add it).1 = (m.add it).1 ∧ (m.add it).2.Alike R (m'.add it).2 := by
  obtain ⟨lp', itineraries, known, basisSize⟩ := m'
  obtain ⟨hlp, rfl, rfl, rfl⟩ := h
  unfold MasterProgram.add
  rw [show (MasterProgram.mk lp' m.itineraries m.known m.basisSize).contains it = m.contains it
    from rfl]
  split
  · exact ⟨rfl, hlp, rfl, rfl, rfl⟩
  · exact ⟨rfl, hR.addColumn _ hlp, rfl, rfl, rfl⟩

omit [Scalar α] in
theorem solve : m'.solve.1 = m.solve.1 ∧ m.solve.2.Alike R m'.solve.2 := by
  obtain ⟨hresult, hlp⟩ := hR.solve h.lp
  exact ⟨hresult, hlp, h.itineraries, h.known, h.basisSize⟩

theorem duals : m'.duals = m.duals := by
  unfold MasterProgram.duals
  rw [h.basisSize]
  exact congrArg (List.cons 0) (List.map_congr_left fun row _ => hR.dual row h.lp)

theorem flightsAbove (tolerance : α) : m'.flightsAbove tolerance = m.flightsAbove tolerance := by
  unfold MasterProgram.flightsAbove
  rw [h.itineraries]
  simp only [hR.primal _ h.lp]

omit [Scalar α] in
theorem removeUnfit (residual : List ℕ) :
    (m.removeUnfit residual).2.Alike R (m'.removeUnfit residual).2 := by
  obtain ⟨lp', itineraries, known, basisSize⟩ := m'
  obtain ⟨hlp, rfl, rfl, rfl⟩ := h
  unfold MasterProgram.removeUnfit
  rw [show (MasterProgram.mk lp' m.itineraries m.known m.basisSize).unfit residual =
    m.unfit residual from rfl]
  dsimp only
  split
  · exact ⟨hlp, rfl, rfl, rfl⟩
  · exact ⟨hR.deleteColumns _ hlp, rfl, rfl, rfl⟩

end MasterProgram.Alike

section Runs

variable {R : L → M → Prop} {A : TourMemory α → TourMemory α → Prop} (hR : Lp.Simulation R)
  {p : Problem α} {settings : Settings α}
  (hA : TourMemory.Simulation p (p.range + settings.rangeSlack) A) {residual : List ℕ}

include hR hA

/-! ### Pricing scans -/

namespace Pricing.Scan.Alike

variable {t : Pricing.Terms α} (hp : t.problem = p) (hs : t.settings = settings)

include hp hs

/-- Looking at stops that a scan may offer keeps two scans side by side. -/
theorem appraise {scan : Pricing.Scan L α} {scan' : Pricing.Scan M α} (h : scan.Alike R A scan')
    {positions : List ℕ} (hstops : p.Askable (t.stopsAt positions))
    (hne : t.stopsAt positions ≠ []) :
    (t.appraise positions scan).Alike R A (t.appraise positions scan') := by
  subst hp hs
  obtain ⟨hanswer, hmemory⟩ := hA _ _ _ h.state.memory hstops hne
  have hask : (t.ask scan'.state.memory (t.stopsAt positions)).1 =
    (t.ask scan.state.memory (t.stopsAt positions)).1 := hanswer
  by_cases hrange : t.problem.range < (t.ask scan.state.memory (t.stopsAt positions)).1
  · rw [Pricing.Terms.appraise_of_lt hrange, Pricing.Terms.appraise_of_lt (hask ▸ hrange)]
    exact ⟨h.walk, rfl, h.added, h.state.master, hmemory⟩
  · by_cases himproves : t.improves (t.itinerary (t.stopsAt positions)
        (t.ask scan.state.memory (t.stopsAt positions)).1) = true
    · obtain ⟨hnew, hmaster⟩ := h.state.master.add hR (t.itinerary (t.stopsAt positions)
        (t.ask scan.state.memory (t.stopsAt positions)).1)
      rw [Pricing.Terms.appraise_of_improves hrange rfl himproves,
        Pricing.Terms.appraise_of_improves (hask ▸ hrange) (hask ▸ rfl) himproves]
      refine ⟨h.walk, rfl, ?_, hmaster, hmemory⟩
      dsimp only
      rw [h.added, hnew]
    · rw [Pricing.Terms.appraise_of_dear hrange himproves,
        Pricing.Terms.appraise_of_dear (hask ▸ hrange) (hask ▸ himproves)]
      exact ⟨h.walk, rfl, h.added, h.state.master, hmemory⟩

theorem scanFrom (ht : t.WellFormed) (steps : ℕ) {scan : Pricing.Scan L α}
    {scan' : Pricing.Scan M α} (hscan : t.Underway scan) (h : scan.Alike R A scan') :
    (t.scanFrom steps scan).Alike R A (t.scanFrom steps scan') := by
  induction steps generalizing scan scan' with
  | zero => exact h
  | succ steps ih =>
    rw [Pricing.Terms.scanFrom_succ, Pricing.Terms.scanFrom_succ, h.added, h.walk, h.extend]
    split
    · split
      next => exact ⟨rfl, h.extend, h.added, h.state⟩
      next positions walk hnext =>
        obtain ⟨hvisit, hscan'⟩ := hscan.visit hnext
        have hafter : (scan.after walk).Alike R A (scan'.after walk) :=
          ⟨rfl, h.extend, h.added, h.state⟩
        exact ih hscan' (hafter.appraise hR hA hp hs (hp ▸ hvisit.offered.askable ht)
          hvisit.offered.nonempty)
    · exact h

theorem scan (ht : t.WellFormed) {st : SolverState L α} {st' : SolverState M α}
    (h : st.Alike R A st') : (t.scan st).Alike R A (t.scan st') :=
  scanFrom hR hA hp hs ht _ (Pricing.Terms.underway_start st) ⟨rfl, rfl, rfl, h⟩

end Pricing.Scan.Alike

/-! ### Column generation -/

namespace ColumnGeneration.Alike

omit hA in
theorem outcome {g : ColumnGeneration L α} {g' : ColumnGeneration M α} (h : g.Alike R A g')
    (ending : ColumnGeneration.Ending) (duals : List α) :
    g'.outcome settings ending duals = g.outcome settings ending duals := by
  unfold ColumnGeneration.outcome
  rw [h.iterations, h.columnsAdded, h.state.master.flightsAbove hR,
    show g'.state.master.objective = _ from hR.objective h.state.master.lp]
  rfl

omit hA in
theorem endAtLimit {g : ColumnGeneration L α} {g' : ColumnGeneration M α} (h : g.Alike R A g') :
    (g'.endAtLimit settings).1 = (g.endAtLimit settings).1 ∧
      (g.endAtLimit settings).2.Alike R A (g'.endAtLimit settings).2 := by
  obtain ⟨hresult, hmaster⟩ := h.state.master.solve hR
  have hsolved : ({ g with state := { g.state with master := g.state.master.solve.2 } } :
      ColumnGeneration L α).Alike R A
        { g' with state := { g'.state with master := g'.state.master.solve.2 } } :=
    ⟨h.iterations, h.columnsAdded, h.order, hmaster, h.state.memory⟩
  unfold ColumnGeneration.endAtLimit
  dsimp only
  rw [hsolved.outcome hR, hresult, hmaster.duals hR]
  exact ⟨rfl, hsolved.state⟩

variable {g : ColumnGeneration L α} {g' : ColumnGeneration M α} {master : MasterProgram L α}
  {master' : MasterProgram M α}

theorem scanAfter (h : g.Alike R A g')
    (horder : g.order.Perm (ColumnGeneration.candidates p residual))
    (hmaster : master.Alike R master') :
    (g.scanAfter p settings residual master).Alike R A
      (g'.scanAfter p settings residual master') := by
  have hterms : g'.terms p settings residual master' = g.terms p settings residual master := by
    unfold ColumnGeneration.terms
    rw [hmaster.duals hR, h.order]
  unfold ColumnGeneration.scanAfter
  rw [hterms]
  exact Pricing.Scan.Alike.scan hR hA rfl rfl (ColumnGeneration.wellFormed_terms horder master)
    ⟨hmaster, h.state.memory⟩

theorem iterated (h : g.Alike R A g')
    (horder : g.order.Perm (ColumnGeneration.candidates p residual))
    (hmaster : master.Alike R master') :
    (g.iterated p settings residual master).Alike R A
      (g'.iterated p settings residual master') := by
  have hscan := h.scanAfter hR hA horder hmaster
  unfold ColumnGeneration.iterated ColumnGeneration.next ColumnGeneration.terms
  rw [hmaster.duals hR, h.order]
  exact ⟨congrArg (· + 1) h.iterations, by rw [h.columnsAdded, hscan.added], rfl, hscan.state⟩

omit [Scalar α] hA in
theorem solved (h : g.Alike R A g') {result : Except (Error α) Unit}
    (hsolve : g.state.master.solve = (result, master)) :
    ∃ master', g'.state.master.solve = (result, master') ∧ master.Alike R master' := by
  obtain ⟨hresult, hmaster⟩ := h.state.master.solve hR
  rw [hsolve] at hresult hmaster
  exact ⟨g'.state.master.solve.2, Prod.ext hresult rfl, hmaster⟩

theorem iterate (left : ℕ) (h : g.Alike R A g')
    (horder : g.order.Perm (ColumnGeneration.candidates p residual)) :
    (ColumnGeneration.iterate p settings residual left g').1 =
        (ColumnGeneration.iterate p settings residual left g).1 ∧
      (ColumnGeneration.iterate p settings residual left g).2.Alike R A
        (ColumnGeneration.iterate p settings residual left g').2 := by
  induction left using Nat.strong_induction_on generalizing g g' with
  | _ left ih =>
    match hsolve : g.state.master.solve with
    | (.error e, master) =>
      obtain ⟨master', hsolve', hmaster⟩ := h.solved hR hsolve
      rw [ColumnGeneration.iterate_of_error hsolve, ColumnGeneration.iterate_of_error hsolve']
      exact ⟨rfl, hmaster, h.state.memory⟩
    | (.ok (), master) =>
      obtain ⟨master', hsolve', hmaster⟩ := h.solved hR hsolve
      have hscan := h.scanAfter hR hA horder hmaster
      have hnext := h.iterated hR hA horder hmaster
      by_cases hadded : (g.scanAfter p settings residual master).added = 0
      · have hadded' := hscan.added.trans hadded
        rw [ColumnGeneration.iterate_of_idle hsolve hadded,
          ColumnGeneration.iterate_of_idle hsolve' hadded', hmaster.duals hR, hnext.outcome hR]
        exact ⟨rfl, hscan.state⟩
      · have hadded' := hscan.added.trans_ne hadded
        cases left with
        | zero =>
          rw [ColumnGeneration.iterate_zero hsolve hadded,
            ColumnGeneration.iterate_zero hsolve' hadded']
          exact hnext.endAtLimit hR
        | succ left =>
          rw [ColumnGeneration.iterate_succ hsolve hadded,
            ColumnGeneration.iterate_succ hsolve' hadded']
          exact ih left (Nat.lt_succ_self left) hnext
            (ColumnGeneration.order_iterated horder master)

end ColumnGeneration.Alike

theorem SolverState.Alike.generate (residual : List ℕ) {st : SolverState L α}
    {st' : SolverState M α} (h : st.Alike R A st') :
    (ColumnGeneration.generate p settings residual st').1 =
        (ColumnGeneration.generate p settings residual st).1 ∧
      (ColumnGeneration.generate p settings residual st).2.Alike R A
        (ColumnGeneration.generate p settings residual st').2 := by
  by_cases hlength : p.platformCount < residual.length
  · rw [ColumnGeneration.generate_of_lt_length hlength,
      ColumnGeneration.generate_of_lt_length hlength]
    exact ColumnGeneration.Alike.iterate hR hA _
      ⟨rfl, rfl, rfl, h.master.reset hR p residual, h.memory⟩ (List.Perm.refl _)
  · rw [ColumnGeneration.generate_of_length_le (by omega),
      ColumnGeneration.generate_of_length_le (by omega)]
    exact ⟨rfl, h⟩

/-! ### Rounding -/

namespace Rounding.Alike

variable {C : S → T → Prop} {r : Rounding L S α} {r' : Rounding M T α}

omit [FlightChooser S α] [FlightChooser T α] hA in
theorem fix (h : r.Alike R A C r') (settings : Settings α) (chosen : FractionalFlight α) :
    (r.fix settings chosen).Alike R A C (r'.fix settings chosen) := by
  unfold Rounding.fix
  rw [h.residual, h.remaining, h.plan]
  exact ⟨rfl, rfl, rfl, h.bound, h.rounds, ⟨h.solver.master.removeUnfit hR _, h.solver.memory⟩,
    h.chooser⟩

variable (hC : FlightChooser.Simulation α C)

include hC

theorem round (h : r.Alike R A C r') :
    (r'.round p settings).1 = (r.round p settings).1 ∧
      (r.round p settings).2.Alike R A C (r'.round p settings).2 := by
  obtain ⟨residual', remaining', plan', bound', rounds', solver', chooser'⟩ := r'
  obtain ⟨rfl, rfl, rfl, rfl, rfl, hsolver, hchooser⟩ := h
  obtain ⟨hresult, hfinal⟩ := SolverState.Alike.generate hR hA r.residual hsolver
  unfold Rounding.round
  dsimp only at hresult ⊢
  generalize ColumnGeneration.generate p settings r.residual r.solver = result at *
  generalize ColumnGeneration.generate p settings r.residual solver' = result' at *
  obtain ⟨outcome?, final⟩ := result
  obtain ⟨outcome?', final'⟩ := result'
  obtain rfl : outcome? = outcome?' := hresult.symm
  cases outcome? with
  | error e => exact ⟨rfl, rfl, rfl, rfl, rfl, rfl, hfinal, hchooser⟩
  | ok outcome =>
    dsimp only
    split
    · exact ⟨rfl, rfl, rfl, rfl, rfl, rfl, hfinal, hchooser⟩
    · generalize Rounding.candidates r.residual outcome.flights = candidates
      obtain ⟨hchosen, hleft⟩ := hC _ _ candidates hchooser
      dsimp only at hchosen hleft ⊢
      generalize FlightChooser.choose r.chooser candidates = choice at *
      generalize FlightChooser.choose chooser' candidates = choice' at *
      obtain ⟨index?, chooser⟩ := choice
      obtain ⟨index?', chooser'⟩ := choice'
      obtain rfl : index? = index?' := hchosen.symm
      cases index? with
      | error fault => exact ⟨rfl, rfl, rfl, rfl, rfl, rfl, hfinal, hleft⟩
      | ok index =>
        dsimp only
        split
        · exact ⟨rfl, rfl, rfl, rfl, rfl, rfl, hfinal, hleft⟩
        · exact ⟨rfl, Rounding.Alike.fix hR ⟨rfl, rfl, rfl, rfl, rfl, hfinal, hleft⟩ settings _⟩

theorem finish (h : r.Alike R A C r') :
    (Rounding.finish p settings r').1 = (Rounding.finish p settings r).1 ∧
      (Rounding.finish p settings r).2.Alike R A C (Rounding.finish p settings r').2 := by
  fun_induction Rounding.finish p settings r generalizing r' with
  | case1 r hdone =>
    rw [Rounding.finish_of_remaining_eq_zero (h.remaining.trans hdone)]
    exact ⟨rfl, h⟩
  | case2 r hleft e next hround =>
    obtain ⟨herror, hnext⟩ := h.round hR hA hC
    rw [hround] at herror hnext
    rw [Rounding.finish_of_round_eq_some (h.remaining.trans_ne hleft) (Prod.ext herror rfl)]
    exact ⟨rfl, hnext⟩
  | case3 r hleft next hround ih =>
    obtain ⟨herror, hnext⟩ := h.round hR hA hC
    rw [hround] at herror hnext
    rw [Rounding.finish_of_round_eq_none (h.remaining.trans_ne hleft) (Prod.ext herror rfl)]
    exact ih hnext

end Rounding.Alike

theorem SolverState.Alike.wholePlan {C : S → T → Prop} (hC : FlightChooser.Simulation α C)
    {st : SolverState L α} {st' : SolverState M α} (h : st.Alike R A st') {chooser : S}
    {chooser' : T} (hchooser : C chooser chooser') :
    (Rounding.wholePlan p settings st' chooser').1 =
        (Rounding.wholePlan p settings st chooser).1 ∧
      (Rounding.wholePlan p settings st chooser).2.1.Alike R A
        (Rounding.wholePlan p settings st' chooser').2.1 ∧
      C (Rounding.wholePlan p settings st chooser).2.2
        (Rounding.wholePlan p settings st' chooser').2.2 := by
  have hstart : (Rounding.start p st chooser).Alike R A C (Rounding.start p st' chooser') :=
    ⟨rfl, rfl, rfl, rfl, rfl, h, hchooser⟩
  obtain ⟨herror, hfinish⟩ := hstart.finish hR hA hC
  unfold Rounding.wholePlan
  dsimp only
  rw [herror, hfinish.plan, hfinish.bound, hfinish.rounds]
  exact ⟨rfl, hfinish.solver, hfinish.chooser⟩

end Runs

end OffshoreFlights
