import OffshoreFlights.Lp.Recorded
import OffshoreFlights.Proofs.Lp.Deletion
import OffshoreFlights.Proofs.Lp.Solved

/-! What a store reports between one request to solve and the next. After a solution, each column
keeps its value wherever it moves, a column added since has the value zero, and nothing else of the
solution changes. After a failure all is zero, whatever was reported before. -/

namespace OffshoreFlights.Lp

/-! ### Columns through changes -/

/-- A column with the index that it had when the program was last solved, none if it has been added
since. -/
structure Traced (α : Type) where
  column : Column α
  origin : Option ℕ

namespace Traced

variable {α : Type}

/-- The columns of a program that has just been solved. -/
def start (columns : List (Column α)) : List (Traced α) :=
  columns.zipIdx.map fun (column, j) => ⟨column, some j⟩

/-- The columns after a change. A column that is replaced is still the one in its place. -/
def after (traced : List (Traced α)) : Request α → List (Traced α)
  | .addColumn column => traced ++ [⟨column, none⟩]
  | .replaceColumn index column => traced.modify index fun t => { t with column }
  | .deleteColumns indices => (remaining indices traced.length).filterMap (traced[·]?)
  | .setRhs _ _ | .solve => traced

theorem map_column_start (columns : List (Column α)) : (start columns).map column = columns := by
  rw [start, List.map_map]
  exact List.zipIdx_map_fst 0 columns

theorem map_column_modify (traced : List (Traced α)) (index : ℕ) (new : Column α) :
    (traced.modify index fun t => { t with column := new }).map column =
      (traced.map column).set index new := by
  induction traced generalizing index with
  | nil => simp
  | cons t traced ih =>
    cases index with
    | zero => rfl
    | succ index => exact congrArg (t.column :: ·) (ih index)

theorem map_origin_modify (traced : List (Traced α)) (index : ℕ) (new : Column α) :
    (traced.modify index fun t => { t with column := new }).map origin = traced.map origin := by
  induction traced generalizing index with
  | nil => simp
  | cons t traced ih =>
    cases index with
    | zero => rfl
    | succ index => exact congrArg (t.origin :: ·) (ih index)

end Traced

namespace Store

variable {T α : Type} [Scalar α]

/-! ### Requests -/

section Requests

variable [Solver T α]

/-- The store after a request, unless this is a fault. -/
def serve (s : Store T α) : Request α → Except Fault (Store T α)
  | .setRhs row value => s.setRhsChecked row value
  | .addColumn column => .ok (s.addColumn column)
  | .replaceColumn index column => s.replaceColumnChecked index column
  | .deleteColumns indices => .ok (s.deleteColumns indices)
  | .solve =>
    match s.solve with
    | (.error (.fault fault), _) => .error fault
    | (_, s') => .ok s'

/-- The store after some requests in turn. -/
def serveAll (s : Store T α) (requests : List (Request α)) : Except Fault (Store T α) :=
  requests.foldlM serve s

theorem serveAll_cons {s s' : Store T α} {request : Request α} {requests : List (Request α)}
    (h : s.serveAll (request :: requests) = .ok s') :
    ∃ next, s.serve request = .ok next ∧ next.serveAll requests = .ok s' := by
  rw [serveAll, List.foldlM_cons] at h
  cases hnext : s.serve request with
  | error fault =>
    rw [hnext] at h
    cases h
  | ok next =>
    rw [hnext] at h
    exact ⟨next, rfl, h⟩

end Requests

omit [Scalar α] in
theorem eq_of_setRhsChecked {s s' : Store T α} {row : ℕ} {value : α}
    (h : s.setRhsChecked row value = .ok s') : s' = s.setRhs row value := by
  unfold setRhsChecked elementAt at h
  cases hget : s.program.rhs[row]? <;> rw [hget] at h <;> cases h
  rfl

omit [Scalar α] in
theorem eq_of_replaceColumnChecked {s s' : Store T α} {index : ℕ} {column : Column α}
    (h : s.replaceColumnChecked index column = .ok s') : s' = s.replaceColumn index column := by
  unfold replaceColumnChecked elementAt at h
  cases hget : s.program.columns[index]? <;> rw [hget] at h <;> cases h
  rfl

/-! ### Deletion in place -/

/-- Takes out a column and a value. Past the end of either there is nothing to take out. -/
def deleteColumn (s : Store T α) (index : ℕ) : Store T α :=
  { s.withColumns (s.program.columns.eraseIdx index) with primal := s.primal.eraseIdx index }

/-- Takes out columns with their values one at a time, the last first. -/
def deleteInTurn (s : Store T α) (indices : List ℕ) : Store T α :=
  (falling indices).foldl deleteColumn s

omit [Scalar α] in
theorem foldl_deleteColumn (s : Store T α) (indices : List ℕ) :
    indices.foldl deleteColumn s =
      { s.withColumns (indices.foldl List.eraseIdx s.program.columns) with
        primal := indices.foldl List.eraseIdx s.primal } := by
  induction indices generalizing s with
  | nil => rfl
  | cons d indices ih =>
    rw [List.foldl_cons, ih]
    rfl

omit [Scalar α] in
theorem deleteInTurn_eq (s : Store T α) (indices : List ℕ) :
    s.deleteInTurn indices = s.deleteColumns indices := by
  rw [deleteInTurn, foldl_deleteColumn, foldl_eraseIdx_falling, foldl_eraseIdx_falling]
  rfl

/-! ### Readings -/

theorem getD_append_replicate (xs : List α) (late j : ℕ) :
    (xs ++ List.replicate late 0).getD j 0 = xs.getD j 0 := by
  rcases lt_or_ge j xs.length with h | h
  · exact List.getD_append _ _ _ _ h
  · rw [List.getD_append_right _ _ _ _ h, List.getD_eq_default _ _ h, List.getD_eq_getElem?_getD,
      List.getElem?_replicate]
    split <;> rfl

/-- The readings of a store against those of one that it goes back to: its columns stand at their
traces, and each of them has the value that it had there. -/
structure Follows (solved : Store T α) (traced : List (Traced α)) (s : Store T α) : Prop where
  columns : s.program.columns = traced.map Traced.column
  /-- The columns at the end may have no value yet. -/
  primal : ∃ late, s.primal ++ List.replicate late 0 =
    traced.map fun t => t.origin.elim 0 solved.primalAt
  duals : s.duals = solved.duals
  objective : s.objective = solved.objective

theorem follows_start (s : Store T α) (hlength : s.primal.length ≤ s.program.columns.length) :
    s.Follows (Traced.start s.program.columns) s where
  columns := (Traced.map_column_start _).symm
  primal := by
    refine ⟨s.program.columns.length - s.primal.length, List.ext_getElem ?_ fun j _ hj => ?_⟩
    · simp [Traced.start, hlength]
    · rw [← List.getD_eq_getElem _ 0, getD_append_replicate]
      simp [Traced.start, primalAt]
  duals := rfl
  objective := rfl

namespace Follows

variable {solved s s' : Store T α} {traced : List (Traced α)}

theorem primalAt (h : solved.Follows traced s) (j : ℕ) :
    s.primalAt j = (traced[j]?.bind Traced.origin).elim 0 solved.primalAt := by
  obtain ⟨late, hprimal⟩ := h.primal
  rw [Store.primalAt, ← getD_append_replicate s.primal late, hprimal, List.getD_eq_getElem?_getD,
    List.getElem?_map]
  cases traced[j]? <;> rfl

theorem dualAt (h : solved.Follows traced s) : s.dualAt = solved.dualAt :=
  funext fun row => congrArg (List.getD · row 0) h.duals

theorem setRhs (h : solved.Follows traced s) (row : ℕ) (value : α) :
    solved.Follows traced (s.setRhs row value) :=
  ⟨h.columns, h.primal, h.duals, h.objective⟩

theorem addColumn (h : solved.Follows traced s) (column : Column α) :
    solved.Follows (traced ++ [⟨column, none⟩]) (s.addColumn column) where
  columns := by
    rw [List.map_append, ← h.columns]
    rfl
  primal := by
    obtain ⟨late, hprimal⟩ := h.primal
    refine ⟨late + 1, ?_⟩
    rw [List.map_append, ← hprimal, List.append_assoc, List.replicate_succ']
    rfl
  duals := h.duals
  objective := h.objective

theorem replaceColumn (h : solved.Follows traced s) (index : ℕ) (column : Column α) :
    solved.Follows (traced.modify index fun t => { t with column })
      (s.replaceColumn index column) where
  columns := (congrArg (List.set · index column) h.columns).trans
    (Traced.map_column_modify traced index column).symm
  primal := by
    obtain ⟨late, hprimal⟩ := h.primal
    refine ⟨late, hprimal.trans ?_⟩
    have hvalues := congrArg (List.map fun origin => Option.elim origin 0 solved.primalAt)
      (Traced.map_origin_modify traced index column)
    rw [List.map_map, List.map_map] at hvalues
    exact hvalues.symm
  duals := h.duals
  objective := h.objective

theorem deleteColumns (h : solved.Follows traced s) (indices : List ℕ) :
    solved.Follows (eraseIndices indices traced) (s.deleteColumns indices) where
  columns := (congrArg (eraseIndices indices) h.columns).trans (map_eraseIndices _ _ _).symm
  primal := by
    obtain ⟨late, hprimal⟩ := h.primal
    set left := eraseFrom (0 + s.primal.length) indices (List.replicate late (0 : α)) with hleft
    have hzeros : left = List.replicate left.length 0 := by
      refine List.eq_replicate_iff.mpr ⟨rfl, fun x hx => ?_⟩
      exact List.eq_of_mem_replicate ((eraseFrom_sublist _ _ _).subset hx)
    refine ⟨left.length, ?_⟩
    rw [map_eraseIndices, ← hprimal, eraseIndices_append, ← hleft, ← hzeros]
    rfl
  duals := h.duals
  objective := h.objective

theorem serve [Solver T α] (h : solved.Follows traced s) {request : Request α}
    (hchange : request ≠ .solve) (hserve : s.serve request = .ok s') :
    solved.Follows (Traced.after traced request) s' := by
  cases request with
  | setRhs row value =>
    obtain rfl := eq_of_setRhsChecked hserve
    exact h.setRhs row value
  | addColumn column =>
    obtain rfl := Except.ok.inj hserve
    exact h.addColumn column
  | replaceColumn index column =>
    obtain rfl := eq_of_replaceColumnChecked hserve
    exact h.replaceColumn index column
  | deleteColumns indices =>
    obtain rfl := Except.ok.inj hserve
    rw [Traced.after, ← eraseIndices_eq]
    exact h.deleteColumns indices
  | solve => exact absurd rfl hchange

theorem serveAll [Solver T α] (h : solved.Follows traced s) {requests : List (Request α)}
    (hchanges : .solve ∉ requests) (hserve : s.serveAll requests = .ok s') :
    solved.Follows (requests.foldl Traced.after traced) s' := by
  induction requests generalizing s traced with
  | nil =>
    obtain rfl := Except.ok.inj hserve
    exact h
  | cons request requests ih =>
    obtain ⟨hrequest, hrest⟩ := not_or.mp (mt List.mem_cons.mpr hchanges)
    obtain ⟨next, hnext, hserve⟩ := serveAll_cons hserve
    exact ih (h.serve (Ne.symm hrequest) hnext) hrest hserve

end Follows

/-! ### Solutions -/

section Solutions

variable [Solver T α] {s s' : Store T α}

theorem length_primal_of_solve (h : s.solve = (.ok (), s')) :
    s'.primal.length = s'.program.columns.length := by
  rcases solve_cases h with ⟨-, rfl⟩ | ⟨solution, solver, -, -, rfl⟩
  · exact List.length_replicate
  · show (s.program.spreadPrimal solution.primal).length = s.program.columns.length
    simp [Program.spreadPrimal]

/-- Whatever the reason of a failure, it clears the last solution. -/
theorem cleared_of_failure {failure : Failure} (h : s.solve = (.error (.lp failure), s')) :
    ∃ solver, s' = { s.cleared with solver } := by
  cases outcome_of_solve h with
  | verdict => exact ⟨s.solver, rfl⟩
  | failure => exact ⟨_, rfl⟩

/-- After a solution and any changes, every column that was there when the program was solved has
the value that the solution gave it, wherever the column stands by now, and every column added since
has the value zero. Exactly the columns at the indices given have been deleted, also when they are
taken out in place and in turn. Duals and objective are those of the solution. -/
theorem values_follow_columns (hsolve : s.solve = (.ok (), s')) {requests : List (Request α)}
    (hchanges : .solve ∉ requests) {changed : Store T α}
    (hserve : s'.serveAll requests = .ok changed) :
    let traced := requests.foldl Traced.after (Traced.start s'.program.columns)
    changed.program.columns = traced.map Traced.column ∧
    (∀ j, changed.primalAt j = (traced[j]?.bind Traced.origin).elim 0 s'.primalAt) ∧
    changed.dualAt = s'.dualAt ∧
    changed.objective = s'.objective ∧
    ∀ indices, changed.deleteInTurn indices = changed.deleteColumns indices := by
  intro traced
  have hfollows : s'.Follows traced changed :=
    (follows_start s' (length_primal_of_solve hsolve).le).serveAll hchanges hserve
  exact ⟨hfollows.columns, hfollows.primalAt, hfollows.dualAt, hfollows.objective,
    deleteInTurn_eq changed⟩

/-- All that a store reports is zero. -/
structure Silent (s : Store T α) : Prop where
  primal : ∀ j, s.primalAt j = 0
  dual : ∀ row, s.dualAt row = 0
  objective : s.objective = 0

omit [Solver T α] in
theorem silent_cleared (s : Store T α) (solver : T) : Silent { s.cleared with solver } where
  primal j := by
    show (List.replicate s.program.columns.length (0 : α)).getD j 0 = 0
    rw [← List.nil_append (List.replicate _ _), getD_append_replicate]
    rfl
  dual := dualAt_cleared s
  objective := rfl

omit [Solver T α] in
theorem Silent.of_follows {traced : List (Traced α)} (h : s.Silent)
    (hfollows : s.Follows traced s') : s'.Silent where
  primal j := by
    rw [hfollows.primalAt]
    cases traced[j]?.bind Traced.origin with
    | none => rfl
    | some i => exact h.primal i
  dual row := (congrFun hfollows.dualAt row).trans (h.dual row)
  objective := hfollows.objective.trans h.objective

/-- A failure, whatever its reason, keeps the program and loses the solution before it: from then on
all readings are zero, through any changes. So a failure keeps the readings only where they were all
zero before. -/
theorem silent_after_failure {failure : Failure} (h : s.solve = (.error (.lp failure), s')) :
    s'.program = s.program ∧
    (∀ requests changed, .solve ∉ requests → s'.serveAll requests = .ok changed →
      changed.Silent) ∧
    ((s'.primalAt = s.primalAt ∧ s'.dualAt = s.dualAt ∧ s'.objective = s.objective) ↔
      s.Silent) := by
  obtain ⟨solver, rfl⟩ := cleared_of_failure h
  have hsilent := silent_cleared s solver
  refine ⟨rfl, fun requests changed hchanges hserve => ?_, fun ⟨hprimal, hdual, hobjective⟩ => ?_,
    fun hs => ?_⟩
  · have hstart := follows_start { s.cleared with solver } (by simp [cleared])
    exact hsilent.of_follows (hstart.serveAll hchanges hserve)
  · exact ⟨fun j => hprimal ▸ hsilent.primal j, fun row => hdual ▸ hsilent.dual row,
      hobjective ▸ hsilent.objective⟩
  · exact ⟨funext fun j => (hsilent.primal j).trans (hs.primal j).symm,
      funext fun row => (hsilent.dual row).trans (hs.dual row).symm, hs.objective.symm⟩

end Solutions

end Store

namespace Mixed

/-- Columns come and go, one of them twice and one that does not exist; the second and the third
column of the solved program end up in front. -/
def changes : List (Request ℚ) :=
  [.addColumn ⟨7, [(1, 1)]⟩, .deleteColumns [0, 9, 3, 0], .setRhs 1 5,
    .replaceColumn 1 ⟨4, [(0, 1)]⟩, .addColumn ⟨1, []⟩, .deleteColumns [2]]

theorem values_follow_columns_mixed : store.solve.1 = .ok () ∧ .solve ∉ changes ∧
    ∃ changed, store.solve.2.serveAll changes = .ok changed ∧
      changed.program.columns = [⟨2, [(1, 1), (2, 1)]⟩, ⟨4, [(0, 1)]⟩, ⟨1, []⟩] ∧
      (changed.primalAt 0, changed.primalAt 1, changed.primalAt 2) = (3, 3, 0) ∧
      changed.dualAt 1 = 3 ∧ changed.objective = 9 := by
  have hanswer : store.solve.1 = .ok () := by decide +kernel
  have hserves : (store.solve.2.serveAll changes).toOption.isSome = true := by decide +kernel
  cases hserve : store.solve.2.serveAll changes with
  | error fault =>
    rw [hserve] at hserves
    cases hserves
  | ok changed =>
    obtain ⟨hcolumns, hprimal, hdual, hobjective, -⟩ :=
      Store.values_follow_columns (Prod.ext hanswer rfl) (by decide) hserve
    refine ⟨hanswer, by decide, changed, rfl, ?_, ?_, ?_, ?_⟩
    · exact hcolumns.trans (by decide +kernel)
    · rw [hprimal, hprimal, hprimal]
      decide +kernel
    · rw [hdual]
      decide +kernel
    · rw [hobjective]
      decide +kernel

end Mixed

/-! A program that is solved, and then changed so that its only row is left out and a column of
negative cost has no bound. -/

namespace Relapse

def solved : Store RationalSimplex ℚ :=
  ((Store.ofRhs ⟨⟩ [1]).addColumn ⟨2, [(0, 1)]⟩).solve.2

def changed : Store RationalSimplex ℚ := (solved.setRhs 0 0).addColumn ⟨-1, []⟩

theorem silent_after_failure_relapse : changed.solve.1 = .error (.lp (.freeColumn 1)) ∧
    changed.solve.2.Silent ∧ changed.solve.2.program = changed.program := by
  have hanswer : changed.solve.1 = .error (.lp (.freeColumn 1)) := by decide +kernel
  obtain ⟨hprogram, hsilent, -⟩ := Store.silent_after_failure (Prod.ext hanswer rfl)
  exact ⟨hanswer, hsilent [] changed.solve.2 (by simp) rfl, hprogram⟩

/-- The failure changes the objective, the value of a column and the dual of a row. -/
theorem solution_lost :
    ((Store.ofRhs ⟨⟩ [1] : Store RationalSimplex ℚ).addColumn ⟨2, [(0, 1)]⟩).solve.1 = .ok () ∧
    (changed.objective, changed.primalAt 0, changed.dualAt 0) = (2, 1, 2) ∧
    changed.solve.1 = .error (.lp (.freeColumn 1)) ∧
    (changed.solve.2.objective, changed.solve.2.primalAt 0, changed.solve.2.dualAt 0) =
      (0, 0, 0) := by
  decide +kernel

end Relapse

end OffshoreFlights.Lp
