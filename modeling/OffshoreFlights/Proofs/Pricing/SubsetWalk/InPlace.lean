import OffshoreFlights.Proofs.Pricing.SubsetWalk

/-! A subset walk in place: one list of positions, least first, that is read and written by index.
Every access and every difference is checked, and ends in a fault where it is out of range. A walk
that is underway meets no fault, and takes the steps of `SubsetWalk.next`. -/

namespace OffshoreFlights

inductive InPlaceWalk.Fault where
  | index
  | difference
deriving DecidableEq

structure InPlaceWalk where
  positions : List ℕ
  k : ℕ
  exhausted : Bool
deriving DecidableEq

namespace InPlaceWalk

def difference (a b : ℕ) : Except Fault ℕ := if b ≤ a then .ok (a - b) else .error .difference

def elementAt (positions : List ℕ) (i : ℕ) : Except Fault ℕ :=
  match positions[i]? with
  | some x => .ok x
  | none => .error .index

def incrementAt (positions : List ℕ) (i : ℕ) : Except Fault (List ℕ) := do
  let x ← elementAt positions i
  return positions.set i (x + 1)

/-- Raises the last of the first `n` positions, and carries while the position raised has passed
the greatest. Nothing comes of it if all of them have. Of no positions there is no last. -/
def carry (k : ℕ) : ℕ → List ℕ → Except Fault (Option (List ℕ))
  | 0, _ => .error .difference
  | n + 1, positions => do
    let positions ← incrementAt positions n
    let raised ← elementAt positions n
    if k ≤ raised then
      if n = 0 then return none else carry k n positions
    else return some (positions.take (n + 1))

/-- Whether the subset reached is to be extended. The tail is only looked at where there is one and
extensions are wanted. -/
def extends? (w : InPlaceWalk) (extend : Bool) : Except Fault Bool := do
  let n := w.positions.length
  if n = 0 then return true
  else if extend = true ∧ n < w.k then
    let tail ← elementAt w.positions (← difference n 1)
    return decide (tail < (← difference w.k 1))
  else return false

def next (w : InPlaceWalk) (extend : Bool) : Except Fault (Option (List ℕ) × InPlaceWalk) := do
  if w.exhausted then return (none, w)
  else if ← w.extends? extend then
    let positions := w.positions ++ [(w.positions.getLast?.map (· + 1)).getD 0]
    return (some positions, { w with positions })
  else
    match ← carry w.k w.positions.length w.positions with
    | some positions => return (some positions, { w with positions })
    | none => return (none, { w with positions := [], exhausted := true })

theorem difference_of_le {a b : ℕ} (h : b ≤ a) : difference a b = .ok (a - b) := if_pos h

@[simp] theorem elementAt_append (before after : List ℕ) (x : ℕ) :
    elementAt (before ++ x :: after) before.length = .ok x := by
  simp [elementAt]

@[simp] theorem incrementAt_append (before after : List ℕ) (x : ℕ) :
    incrementAt (before ++ x :: after) before.length = .ok (before ++ (x + 1) :: after) := by
  rw [incrementAt, elementAt_append]
  simp [pure, Except.pure, bind, Except.bind]

/-- What stands behind the positions that carry is of no account. -/
theorem carry_eq (k : ℕ) {r : List ℕ} (hr : r ≠ []) (later : List ℕ) :
    carry k r.length (r.reverse ++ later) = .ok ((SubsetWalk.raise? k r).map List.reverse) := by
  induction r generalizing later with
  | nil => exact absurd rfl hr
  | cons tail rest ih =>
    have hincrement := incrementAt_append rest.reverse later tail
    have helement := elementAt_append rest.reverse later (tail + 1)
    rw [List.length_reverse] at hincrement helement
    rw [List.length_cons, carry, List.reverse_cons, List.append_assoc, List.singleton_append,
      hincrement]
    simp only [bind, Except.bind, helement, pure, Except.pure]
    rw [SubsetWalk.raise?]
    by_cases hk : tail + 1 < k
    · have hlength : rest.length = rest.reverse.length := List.length_reverse.symm
      rw [if_neg (not_le.mpr hk), if_pos hk, Option.map_some, List.reverse_cons, hlength,
        List.take_length_add_append]
      rfl
    · rw [if_pos (not_lt.mp hk), if_neg hk]
      cases rest with
      | nil => rfl
      | cons x rest => rw [if_neg (by simp), ih (by simp)]

end InPlaceWalk

namespace SubsetWalk

/-- The walk with its positions in place. -/
def inPlace (w : SubsetWalk) : InPlaceWalk := ⟨w.current, w.k, w.exhausted⟩

@[simp] theorem inPlace_k (w : SubsetWalk) : w.inPlace.k = w.k := rfl

theorem inPlace_positions {w : SubsetWalk} {chosen : List ℕ} (h : w.chosen = chosen) :
    w.inPlace.positions = chosen.reverse := by
  rw [inPlace, current, h]

theorem Ascending.length_le {k : ℕ} {s : List ℕ} (h : Ascending k s) : s.length ≤ k := by
  have hnodup : s.Nodup := h.increasing.imp fun hlt => hlt.ne
  have hsubset : s ⊆ List.range k := fun i hi => List.mem_range.mpr (h.below i hi)
  simpa using (List.subperm_of_subset hnodup hsubset).length_le

/-- As positions ascend, no more of them stand before the last than there are below it. -/
theorem Ascending.length_le_tail {k tail : ℕ} {rest : List ℕ}
    (h : Ascending k (tail :: rest).reverse) : rest.length ≤ tail := by
  rw [List.reverse_cons] at h
  obtain ⟨hrest, -, hlast⟩ := List.pairwise_append.mp h.increasing
  have hbelow : Ascending tail rest.reverse := ⟨hrest, fun i hi => hlast i hi tail (by simp)⟩
  simpa using hbelow.length_le

theorem extends?_inPlace_of_nil {w : SubsetWalk} (h : w.chosen = []) (extend : Bool) :
    w.inPlace.extends? extend = .ok true := by
  rw [InPlaceWalk.extends?, inPlace_positions h]
  rfl

theorem extends?_inPlace_of_cons {w : SubsetWalk} {tail : ℕ} {rest : List ℕ}
    (h : w.chosen = tail :: rest) (hw : Ascending w.k w.current) (extend : Bool) :
    w.inPlace.extends? extend = .ok (decide (extend = true ∧ tail + 1 < w.k)) := by
  have hroom : rest.length ≤ tail := by
    rw [current, h] at hw
    exact hw.length_le_tail
  have htail : InPlaceWalk.elementAt w.inPlace.positions rest.length = .ok tail := by
    rw [inPlace_positions h, List.reverse_cons, ← List.length_reverse]
    exact InPlaceWalk.elementAt_append rest.reverse [] tail
  have hlength : w.inPlace.positions.length = rest.length + 1 := by
    rw [inPlace_positions h, List.length_reverse, List.length_cons]
  simp only [InPlaceWalk.extends?, hlength, inPlace_k]
  rw [if_neg (Nat.succ_ne_zero _)]
  by_cases hextend : extend = true ∧ rest.length + 1 < w.k
  · rw [if_pos hextend, InPlaceWalk.difference_of_le (Nat.le_add_left 1 _),
      InPlaceWalk.difference_of_le (by omega : 1 ≤ w.k)]
    simp only [bind, Except.bind, Nat.add_sub_cancel, htail, pure, Except.pure,
      Except.ok.injEq, decide_eq_decide, hextend.1, true_and]
    omega
  · rw [if_neg hextend]
    simp only [pure, Except.pure, Except.ok.injEq, Bool.false_eq, decide_eq_false_iff_not]
    rintro ⟨hwanted, hraised⟩
    exact hextend ⟨hwanted, by omega⟩

/-- No index and no difference of a step in place is out of range, and the step is that of the
walk. -/
theorem next_inPlace {w : SubsetWalk} (hw : Ascending w.k w.current) (extend : Bool) :
    w.inPlace.next extend = .ok ((w.next extend).1, (w.next extend).2.inPlace) := by
  rw [InPlaceWalk.next, next]
  by_cases hended : w.exhausted = true
  · rw [if_pos hended]
    exact if_pos hended
  rw [if_neg hended]
  refine (if_neg hended).trans ?_
  rw [successor?]
  cases hchosen : w.chosen with
  | nil =>
    rw [extends?_inPlace_of_nil hchosen, inPlace_positions hchosen]
    rfl
  | cons tail rest =>
    rw [extends?_inPlace_of_cons hchosen hw, inPlace_positions hchosen]
    simp only [bind, Except.bind, decide_eq_true_eq]
    by_cases hextend : extend = true ∧ tail + 1 < w.k
    · rw [if_pos hextend, if_pos hextend]
      simp [pure, Except.pure, inPlace, current]
    · have hcarry := InPlaceWalk.carry_eq w.k (List.cons_ne_nil tail rest) []
      rw [List.append_nil] at hcarry
      rw [if_neg hextend, if_neg hextend, List.length_reverse, inPlace_k, hcarry]
      cases raise? w.k (tail :: rest) with
      | none => rfl
      | some chosen => rfl

end SubsetWalk

end OffshoreFlights
