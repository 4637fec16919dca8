import Mathlib.Data.List.Basic
import OffshoreFlights.Problem.Sheets
import OffshoreFlights.Proofs.Text.Tokens

/-! The places of a sheet, which its tokens fill in order. A reading of part of a sheet takes the
tokens of its places. If these have a flaw it reports the first of them, on the line of the token,
or past the last line where the token is missing; otherwise its value is what the tokens say. -/

namespace OffshoreFlights.Sheet

open Text

/-- A token reads as a field. -/
def legible : FileField → List Char → Bool
  | .platformCount, text | .index, text => (Numeral.natural? countBound text).isSome
  | .capacity, text | .demand, text => (Numeral.natural? passengerBound text).isSome
  | .rangeLimit, text | .xCoordinate, text | .yCoordinate, text => (Numeral.float? text).isSome

/-- What should stand at a place of a sheet. -/
inductive Place where
  | field (name : FileField)
  /-- An index, which must be the one expected. -/
  | index (expected : ℕ)

/-- The flaw of the token at a place, if there is a token. -/
def Place.flaw? : Place → Option (List Char) → Option TokenFlaw
  | .field name, none => some (.missing name)
  | .field name, some text =>
    if legible name text then none else some (.invalid name (String.ofList text))
  | .index _, none => some (.missing .index)
  | .index expected, some text =>
    match Numeral.natural? countBound text with
    | none => some (.invalid .index (String.ofList text))
    | some found => if found = expected then none else some (.wrongIndex expected found)

/-- The first place with a flaw, counted from zero, and the flaw. -/
def firstFlaw? : List Place → List (List Char) → Option (ℕ × TokenFlaw)
  | [], _ => none
  | place :: places, texts =>
    match place.flaw? texts.head? with
    | some flaw => some (0, flaw)
    | none => (firstFlaw? places texts.tail).map fun (k, flaw) => (k + 1, flaw)

theorem Place.flaw?_missing {place : Place} {text? : Option (List Char)} {flaw : TokenFlaw}
    (h : place.flaw? text? = some flaw) : text? = none ↔ ∃ name, flaw = .missing name := by
  cases place <;> cases text? <;> grind [Place.flaw?]

theorem firstFlaw?_cons {place : Place} {places : List Place} {texts : List (List Char)} {k : ℕ}
    {flaw : TokenFlaw} (h : firstFlaw? (place :: places) texts = some (k, flaw)) :
    k = 0 ∧ place.flaw? texts.head? = some flaw ∨
      ∃ m, k = m + 1 ∧ place.flaw? texts.head? = none ∧
        firstFlaw? places texts.tail = some (m, flaw) := by
  unfold firstFlaw? at h
  split at h
  · next flaw' hflaw =>
    cases h
    exact .inl ⟨rfl, hflaw⟩
  · next hnone =>
    obtain ⟨⟨m, flaw'⟩, hrest, heq⟩ := Option.map_eq_some_iff.mp h
    cases heq
    exact .inr ⟨m, rfl, hnone, hrest⟩

theorem firstFlaw?_singleton {place : Place} {texts : List (List Char)} {k : ℕ} {flaw : TokenFlaw}
    (h : firstFlaw? [place] texts = some (k, flaw)) :
    k = 0 ∧ place.flaw? texts.head? = some flaw := by
  obtain hfirst | ⟨m, -, -, hrest⟩ := firstFlaw?_cons h
  · exact hfirst
  · simp [firstFlaw?] at hrest

/-- A flaw is the lack of a token exactly if there is no token at its place. -/
theorem firstFlaw?_missing {places : List Place} {texts : List (List Char)} {k : ℕ}
    {flaw : TokenFlaw} (h : firstFlaw? places texts = some (k, flaw)) :
    texts[k]? = none ↔ ∃ name, flaw = .missing name := by
  induction places generalizing texts k with
  | nil => simp [firstFlaw?] at h
  | cons place places ih =>
    obtain ⟨rfl, hflaw⟩ | ⟨m, rfl, -, hrest⟩ := firstFlaw?_cons h
    · rw [← Place.flaw?_missing hflaw, List.head?_eq_getElem?]
    · rw [← ih hrest, List.getElem?_tail]

theorem firstFlaw?_append (ps qs : List Place) (texts : List (List Char)) :
    firstFlaw? (ps ++ qs) texts = (firstFlaw? ps texts).or
      ((firstFlaw? qs (texts.drop ps.length)).map fun (k, flaw) => (ps.length + k, flaw)) := by
  induction ps generalizing texts with
  | nil => simp [firstFlaw?]
  | cons place ps ih =>
    simp only [List.cons_append, firstFlaw?, ih, List.length_cons, ← List.drop_tail]
    cases place.flaw? texts.head? <;> cases firstFlaw? ps texts.tail <;>
      simp [Function.comp_def, Nat.add_right_comm]

/-- The first flaw depends on the tokens up to it. -/
theorem firstFlaw?_congr {places : List Place} {texts texts' : List (List Char)} {k : ℕ}
    {flaw : TokenFlaw} (htexts : texts'.take (k + 1) = texts.take (k + 1))
    (h : firstFlaw? places texts = some (k, flaw)) :
    firstFlaw? places texts' = some (k, flaw) := by
  induction places generalizing texts texts' k with
  | nil => simp [firstFlaw?] at h
  | cons place places ih =>
    have hhead : texts'.head? = texts.head? := by
      simpa [List.head?_take] using congrArg List.head? htexts
    obtain ⟨rfl, hflaw⟩ | ⟨m, rfl, hnone, hrest⟩ := firstFlaw?_cons h
    · simp [firstFlaw?, hhead, hflaw]
    · have htail : texts'.tail.take (m + 1) = texts.tail.take (m + 1) := by
        simpa [← List.drop_one, List.drop_take] using congrArg List.tail htexts
      simp [firstFlaw?, hhead, hnone, ih htail hrest]

/-- A reading takes the tokens of some places, which mean its value. -/
structure Takes {β : Type} (reading : Reading Float β) (places : List Place)
    (Means : List (List Char) → β → Prop) : Prop where
  takes (r : TokenReader) (value : β) (h : Means r.prospect.texts value) :
    ∃ r', reading.run r = .ok (value, r') ∧ r'.prospect = r.prospect.drop places.length
  fails (r : TokenReader) (k : ℕ) (flaw : TokenFlaw)
    (h : firstFlaw? places r.prospect.texts = some (k, flaw)) :
    reading.run r = .error (r.prospect.report k flaw)
  meant (texts : List (List Char)) : firstFlaw? places texts = none ↔ ∃ value, Means texts value

namespace Takes

variable {β γ : Type}

theorem of_iff {reading : Reading Float β} {places : List Place}
    {Means Means' : List (List Char) → β → Prop} (h : Takes reading places Means)
    (hmeans : ∀ texts value, Means texts value ↔ Means' texts value) :
    Takes reading places Means' := by
  have : Means = Means' := funext₂ fun texts value => propext (hmeans texts value)
  exact this ▸ h

theorem pure (value : β) : Takes (pure value) [] fun _ found => found = value where
  takes r _ h := ⟨r, by rw [h]; rfl, rfl⟩
  fails r k flaw h := by simp [firstFlaw?] at h
  meant texts := by simp [firstFlaw?]

/-- One reading after another takes the places of both. -/
theorem bind {x : Reading Float β} {f : β → Reading Float γ} {ps qs : List Place}
    {M : List (List Char) → β → Prop} {N : β → List (List Char) → γ → Prop}
    (hx : Takes x ps M) (hf : ∀ value, Takes (f value) qs (N value)) :
    Takes (x >>= f) (ps ++ qs) fun texts found =>
      ∃ value, M texts value ∧ N value (texts.drop ps.length) found where
  takes r found h := by
    obtain ⟨value, hvalue, hfound⟩ := h
    obtain ⟨r₁, hrun₁, hr₁⟩ := hx.takes r value hvalue
    obtain ⟨r₂, hrun₂, hr₂⟩ := (hf value).takes r₁ found (by rwa [hr₁, Prospect.texts_drop])
    refine ⟨r₂, ?_, by rw [hr₂, hr₁, Prospect.drop_drop, List.length_append]⟩
    rw [StateT.run_bind, hrun₁]
    exact hrun₂
  fails r k flaw h := by
    rw [firstFlaw?_append, Option.or_eq_some_iff] at h
    obtain h | ⟨hnone, h⟩ := h
    · rw [StateT.run_bind, hx.fails r k flaw h]
      rfl
    · obtain ⟨⟨j, _⟩, hflaw, heq⟩ := Option.map_eq_some_iff.mp h
      cases heq
      obtain ⟨value, hvalue⟩ := (hx.meant _).mp hnone
      obtain ⟨r₁, hrun₁, hr₁⟩ := hx.takes r value hvalue
      rw [StateT.run_bind, hrun₁, ← Prospect.report_drop, ← hr₁]
      exact (hf value).fails r₁ j flaw (by rwa [hr₁, Prospect.texts_drop])
  meant texts := by
    rw [firstFlaw?_append, Option.or_eq_none_iff, Option.map_eq_none_iff, hx.meant]
    constructor
    · rintro ⟨⟨value, hvalue⟩, hnone⟩
      obtain ⟨found, hfound⟩ := ((hf value).meant _).mp hnone
      exact ⟨found, value, hvalue, hfound⟩
    · rintro ⟨found, value, hvalue, hfound⟩
      exact ⟨⟨value, hvalue⟩, ((hf value).meant _).mpr ⟨found, hfound⟩⟩

end Takes

section Fields

variable {β : Type}

theorem field_run (name : FileField) (read? : List Char → Option β) (r : TokenReader) :
    (Text.field (α := Float) name read?).run r =
      match r.next with
      | .error e => .error e
      | .ok (none, r') => .error (.badToken (r'.line + 1) (.missing name))
      | .ok (some text, r') =>
        match read? text with
        | none => .error (.badToken r'.line (.invalid name (String.ofList text)))
        | some value => .ok (value, r') := by
  simp only [Text.field, StateT.run_bind, StateT.run_get, StateT.run_monadLift, monadLift_self,
    bind_pure_comp, StateT.run_set, pure_bind, bind_map_left]
  rcases (r.next : Except (Error Float) _) with e | ⟨token?, r'⟩
  · rfl
  · cases token? with
    | none => rfl
    | some text =>
      simp only [bind, Except.bind]
      cases read? text <;> rfl

theorem indexField_run (expected : ℕ) (r : TokenReader) :
    (indexField expected).run r =
      match (Text.field .index (Numeral.natural? countBound)).run r with
      | .error e => .error e
      | .ok (found, r') =>
        if found = expected then .ok ((), r')
        else .error (.badToken r'.line (.wrongIndex expected found)) := by
  simp only [indexField, ne_eq, ite_not, StateT.run_bind]
  rcases (Text.field .index (Numeral.natural? countBound)).run r with e | ⟨found, r'⟩
  · rfl
  · simp only [bind, Except.bind]
    split <;> rfl

theorem texts_head? (p : Prospect) : p.texts.head? = p.tokens.head?.map Token.text := by
  simp [Prospect.texts]

/-- A value that the texts before a reader start with comes from a token. -/
theorem exists_token {p : Prospect} {read? : List Char → Option β} {value : β}
    (h : p.texts[0]?.bind read? = some value) :
    ∃ token, p.tokens.head? = some token ∧ read? token.text = some value := by
  rw [← List.head?_eq_getElem?, texts_head?, Option.bind_eq_some_iff] at h
  obtain ⟨text, htext, hvalue⟩ := h
  obtain ⟨token, htoken, rfl⟩ := Option.map_eq_some_iff.mp htext
  exact ⟨token, htoken, hvalue⟩

/-- The token of a field is taken if it reads as the field. -/
theorem field_takes (name : FileField) {read? : List Char → Option β} {r : TokenReader}
    {token : Token} {value : β} (htoken : r.prospect.tokens.head? = some token)
    (hread : read? token.text = some value) :
    ∃ r', (Text.field (α := Float) name read?).run r = .ok (value, r') ∧ r'.line = token.line ∧
      r'.prospect = r.prospect.drop 1 := by
  have step := r.next_step (α := Float)
  rw [field_run]
  generalize (r.next : Except (Error Float) _) = answer at step
  cases step with
  | @token token' r' htokens hpast hline =>
    rw [htokens, List.head?_cons, Option.some_inj] at htoken
    subst htoken
    refine ⟨r', by simp [hread], hline, ?_⟩
    rw [Prospect.drop, htokens, ← hpast]
    rfl
  | ended htokens _ => simp [htokens] at htoken
  | unreadable htokens _ => simp [htokens] at htoken

/-- The lack of a token, or a token that does not read as the field, is reported. -/
theorem field_fails {name : FileField} {read? : List Char → Option β}
    (hread : ∀ text, legible name text = (read? text).isSome) {r : TokenReader} {flaw : TokenFlaw}
    (h : (Place.field name).flaw? r.prospect.texts.head? = some flaw) :
    (Text.field (α := Float) name read?).run r = .error (r.prospect.report 0 flaw) := by
  have step := r.next_step (α := Float)
  rw [field_run]
  rw [texts_head?] at h
  generalize (r.next : Except (Error Float) _) = answer at step
  cases step with
  | @token token r' htokens _ hline =>
    rw [htokens, List.head?_cons, Option.map_some, Place.flaw?, hread] at h
    cases hvalue : read? token.text with
    | none =>
      simp only [hvalue] at h
      cases h
      simp [hvalue, Prospect.report, htokens, hline]
    | some value => simp [hvalue] at h
  | ended htokens hpast =>
    rw [htokens] at h
    cases h
    simp [Prospect.report, htokens, hpast]
  | unreadable htokens hpast => simp [Prospect.report, htokens, hpast]

theorem legible_index (text : List Char) :
    legible .index text = (Numeral.natural? countBound text).isSome := rfl

theorem indexField_fails {expected : ℕ} {r : TokenReader} {flaw : TokenFlaw}
    (h : (Place.index expected).flaw? r.prospect.texts.head? = some flaw) :
    (indexField expected).run r = .error (r.prospect.report 0 flaw) := by
  by_cases hfield : (Place.field .index).flaw? r.prospect.texts.head? = some flaw
  · rw [indexField_run, field_fails legible_index hfield]
  · -- The token is an index, but another than the one expected.
    rw [texts_head?] at h hfield
    cases htoken : r.prospect.tokens.head? with
    | none => simp_all [Place.flaw?]
    | some token =>
      cases hfound : Numeral.natural? countBound token.text with
      | none => simp_all [Place.flaw?, legible]
      | some found =>
        obtain ⟨r', hrun, hline, -⟩ := field_takes .index htoken hfound
        simp only [htoken, Option.map_some, Place.flaw?, hfound] at h
        rw [indexField_run, hrun]
        split at h
        · cases h
        · next hne =>
          cases h
          simp [hne, hline, Prospect.report, ← List.head?_eq_getElem?, htoken]

end Fields

namespace Takes

variable {β : Type}

/-- A field takes one token. -/
theorem field (name : FileField) {read? : List Char → Option β}
    (hread : ∀ text, legible name text = (read? text).isSome) :
    Takes (Text.field name read?) [.field name] fun texts value =>
      texts[0]?.bind read? = some value where
  takes r value h := by
    obtain ⟨token, htoken, hvalue⟩ := exists_token h
    obtain ⟨r', hrun, -, hr'⟩ := field_takes name htoken hvalue
    exact ⟨r', hrun, hr'⟩
  fails r k flaw h := by
    obtain ⟨rfl, hflaw⟩ := firstFlaw?_singleton h
    exact field_fails hread hflaw
  meant texts := by
    cases texts with
    | nil => simp [firstFlaw?, Place.flaw?]
    | cons text texts => cases h : read? text <;> simp [firstFlaw?, Place.flaw?, hread, h]

/-- An index takes one token, which must hold it. -/
theorem index (expected : ℕ) :
    Takes (indexField expected) [.index expected] fun texts _ =>
      texts[0]?.bind (Numeral.natural? countBound) = some expected where
  takes r value h := by
    obtain ⟨token, htoken, hvalue⟩ := exists_token h
    obtain ⟨r', hrun, -, hr'⟩ := field_takes .index htoken hvalue
    exact ⟨r', by rw [indexField_run, hrun]; simp, hr'⟩
  fails r k flaw h := by
    obtain ⟨rfl, hflaw⟩ := firstFlaw?_singleton h
    exact indexField_fails hflaw
  meant texts := by
    cases texts with
    | nil => simp [firstFlaw?, Place.flaw?]
    | cons text texts =>
      cases h : Numeral.natural? countBound text <;> grind [firstFlaw?, Place.flaw?]

/-- Records that take places of one width take them one record after the other. -/
theorem records {record : ℕ → Reading Float β} {places : ℕ → List Place}
    {M : ℕ → List (List Char) → β → Prop} {width : ℕ}
    (hrecord : ∀ i, Takes (record i) (places i) (M i)) (hwidth : ∀ i, (places i).length = width)
    (count first : ℕ) :
    Takes (Sheet.records record count first) ((List.range' first count).flatMap places)
      fun texts values => values.length = count ∧
        ∀ j value, values[j]? = some value → M (first + j) (texts.drop (width * j)) value := by
  induction count generalizing first with
  | zero =>
    refine (Takes.pure []).of_iff fun texts values => ?_
    simp +contextual [List.length_eq_zero_iff]
  | succ count ih =>
    rw [List.range'_succ, List.flatMap_cons, Sheet.records]
    have hrest (value : β) := (ih (first + 1)).bind fun rest => Takes.pure (value :: rest)
    simp only [List.append_nil] at hrest
    refine ((hrecord first).bind hrest).of_iff fun texts values => ?_
    have hshift (j : ℕ) : first + 1 + j = first + (j + 1) ∧
        (texts.drop (places first).length).drop (width * j) = texts.drop (width * (j + 1)) :=
      ⟨by omega, by rw [hwidth, List.drop_drop, Nat.mul_succ, Nat.add_comm]⟩
    constructor
    · rintro ⟨value, hvalue, rest, ⟨hlength, hrecords⟩, rfl⟩
      refine ⟨by simp [hlength], fun j found hj => ?_⟩
      cases j with
      | zero =>
        cases hj
        simpa using hvalue
      | succ j =>
        rw [← (hshift j).1, ← (hshift j).2]
        exact hrecords j found hj
    · rintro ⟨hlength, hrecords⟩
      obtain ⟨value, rest, rfl⟩ := List.exists_cons_of_length_eq_add_one hlength
      refine ⟨value, by simpa using hrecords 0 value rfl, rest, ⟨by simpa using hlength, ?_⟩, rfl⟩
      intro j found hj
      rw [(hshift j).1, (hshift j).2]
      exact hrecords (j + 1) found hj

end Takes

end OffshoreFlights.Sheet
