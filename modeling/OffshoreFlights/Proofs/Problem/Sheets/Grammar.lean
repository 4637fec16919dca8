import Mathlib.Data.List.Basic
import OffshoreFlights.Proofs.Problem.Sheets.Places

/-! What it is for a reader of sheets to keep to a grammar: it accepts what is written in the
grammar, whatever the layout of the tokens over lines, and refuses every other text for the first
token or rule that fails, without a look at the lines after that token. -/

namespace OffshoreFlights

open Text Sheet

/-- An error with no line. -/
def Error.unlined {α : Type} : Error α → Error α
  | .badToken _ flaw => .badToken 0 flaw
  | e => e

namespace Sheet

variable {β : Type} {read : List UInt8 → Except (Error Float) β}
  {Written : List (List Char) → β → Prop} {width : β → ℕ}
  {Refused : List (List Char) → ℕ → Error Float → Prop}

/-- A reader of sheets keeps to a grammar. `Written` relates the tokens of a sheet to its value,
which takes as many tokens as `width` says. `Refused` relates tokens that belong to no sheet to the
last of them that has to be read and to the error, with any line. -/
structure Exact (read : List UInt8 → Except (Error Float) β)
    (Written : List (List Char) → β → Prop) (width : β → ℕ)
    (Refused : List (List Char) → ℕ → Error Float → Prop) : Prop where
  accepts (bytes : List UInt8) (value : β) : read bytes = .ok value ↔ Written (tokens bytes) value
  /-- The error is that of the first token or rule that fails. -/
  rejects (bytes : List UInt8) (e : Error Float) (h : read bytes = .error e)
    (he : e ≠ .unreadable) : ∃ k, Refused (tokens bytes) k e
  /-- A line that is not text is an error if a token is still missing where it comes. -/
  unreadable (bytes : List UInt8) : read bytes = .error .unreadable ↔
    ¬Legible bytes ∧ ∃ k line name, Refused (tokens bytes) k (.badToken line (.missing name))
  /-- Texts with the same tokens have the same result, up to the line in an error. -/
  layout (bytes other : List UInt8) (htokens : tokens other = tokens bytes)
    (h : read bytes ≠ .error .unreadable) (hother : read other ≠ .error .unreadable) :
    (read other).mapError Error.unlined = (read bytes).mapError Error.unlined
  /-- The lines after that of the last token needed are not read. -/
  unread (bytes other : List UInt8) (k : ℕ) (token : Token)
    (hlast : (∃ value, Written (tokens bytes) value ∧ k + 1 = width value) ∨
      ∃ e, Refused (tokens bytes) k e)
    (htoken : (located bytes)[k]? = some token)
    (hlines : (other.splitOn 10).take token.line = (bytes.splitOn 10).take token.line) :
    read other = read bytes

/-- An error about a place of a text, with the line that the reader has for it. -/
def told (bytes : List UInt8) (k : ℕ) : Error Float → Error Float
  | .badToken _ flaw => (TokenReader.start bytes).prospect.report k flaw
  | e => e

theorem run'_ok {reading : Reading Float β} {r r' : TokenReader} {value : β}
    (h : reading.run r = .ok (value, r')) : reading.run' r = .ok value := by
  rw [StateT.run'_eq, h]
  rfl

theorem run'_error {reading : Reading Float β} {r : TokenReader} {e : Error Float}
    (h : reading.run r = .error e) : reading.run' r = .error e := by
  rw [StateT.run'_eq, h]
  rfl

/-- What the reading of each sheet has to say for its reader to keep to the grammar. -/
structure Governed (read : List UInt8 → Except (Error Float) β)
    (Written : List (List Char) → β → Prop) (width : β → ℕ)
    (Refused : List (List Char) → ℕ → Error Float → Prop) : Prop where
  accepted {bytes : List UInt8} {value : β} (h : Written (tokens bytes) value) :
    read bytes = .ok value
  refused {bytes : List UInt8} {k : ℕ} {e : Error Float} (h : Refused (tokens bytes) k e) :
    read bytes = .error (told bytes k e)
  decided (texts : List (List Char)) : (∃ value, Written texts value) ∨ ∃ k e, Refused texts k e
  written_congr {texts texts' : List (List Char)} {value : β} (h : Written texts value)
    (htexts : texts'.take (width value) = texts.take (width value)) : Written texts' value
  refused_congr {texts texts' : List (List Char)} {k : ℕ} {e : Error Float} (h : Refused texts k e)
    (htexts : texts'.take (k + 1) = texts.take (k + 1)) : Refused texts' k e
  relined {texts : List (List Char)} {k line : ℕ} {flaw : TokenFlaw}
    (h : Refused texts k (.badToken line flaw)) (line' : ℕ) : Refused texts k (.badToken line' flaw)
  missing {texts : List (List Char)} {k line : ℕ} {flaw : TokenFlaw}
    (h : Refused texts k (.badToken line flaw)) :
    texts[k]? = none ↔ ∃ name, flaw = .missing name
  legible {texts : List (List Char)} {k : ℕ} : ¬Refused texts k .unreadable

/-- The line of an error is all that a text adds to its tokens. -/
theorem told_cases {bytes : List UInt8} {k : ℕ} {e : Error Float}
    (hlegible : told bytes k e ≠ .unreadable) :
    told bytes k e = e ∨ ∃ line line' flaw, e = .badToken line flaw ∧
      told bytes k e = .badToken line' flaw := by
  cases e with
  | badToken line flaw =>
    obtain hreport | ⟨line', hreport⟩ := (TokenReader.start bytes).prospect.report_cases
      (α := Float) k flaw
    · exact absurd hreport hlegible
    · exact .inr ⟨line, line', flaw, rfl, hreport⟩
  | _ => exact .inl rfl

theorem unlined_told {bytes : List UInt8} {k : ℕ} {e : Error Float}
    (hlegible : told bytes k e ≠ .unreadable) : (told bytes k e).unlined = e.unlined := by
  obtain htold | ⟨line, line', flaw, rfl, htold⟩ := told_cases hlegible
  · rw [htold]
  · rw [htold]
    rfl

/-- The error of a reader belongs to the grammar with the line that the reader has for it. -/
theorem Governed.refused_told (h : Governed read Written width Refused) {bytes : List UInt8}
    {k : ℕ} {e : Error Float} (he : Refused (tokens bytes) k e)
    (hlegible : told bytes k e ≠ .unreadable) : Refused (tokens bytes) k (told bytes k e) := by
  obtain htold | ⟨line, line', flaw, rfl, htold⟩ := told_cases hlegible
  · rwa [htold]
  · rw [htold]
    exact h.relined he line'

theorem told_congr {bytes other : List UInt8} {k : ℕ} {token : Token} (e : Error Float)
    (htoken : (located bytes)[k]? = some token) (hother : (located other)[k]? = some token) :
    told other k e = told bytes k e := by
  cases e with
  | badToken line flaw =>
    simp [told, Prospect.report, TokenReader.prospect_start, htoken, hother]
  | _ => rfl

theorem getElem?_congr {γ : Type} {xs ys : List γ} {n i : ℕ} (h : ys.take n = xs.take n)
    (hi : i < n) : ys[i]? = xs[i]? := by
  rw [← List.getElem?_take_of_lt hi, h, List.getElem?_take_of_lt hi]

theorem Governed.exact (h : Governed read Written width Refused) :
    Exact read Written width Refused where
  accepts bytes value := by
    refine ⟨fun hread => ?_, h.accepted⟩
    obtain ⟨found, hfound⟩ | ⟨k, e, he⟩ := h.decided (tokens bytes)
    · rw [h.accepted hfound, Except.ok.injEq] at hread
      exact hread ▸ hfound
    · simp [h.refused he] at hread
  rejects bytes e hread hne := by
    obtain ⟨found, hfound⟩ | ⟨k, e', he'⟩ := h.decided (tokens bytes)
    · simp [h.accepted hfound] at hread
    · rw [h.refused he', Except.error.injEq] at hread
      subst hread
      exact ⟨k, h.refused_told he' hne⟩
  unreadable bytes := by
    rw [← TokenReader.past_start_none]
    constructor
    · intro hread
      obtain ⟨found, hfound⟩ | ⟨k, e, he⟩ := h.decided (tokens bytes)
      · simp [h.accepted hfound] at hread
      · rw [h.refused he, Except.error.injEq] at hread
        cases e with
        | badToken line flaw =>
          rw [told, Prospect.report_unreadable, TokenReader.texts_start] at hread
          obtain ⟨name, rfl⟩ := (h.missing he).mp hread.1
          exact ⟨hread.2, k, line, name, he⟩
        | unreadable => exact absurd he h.legible
        | _ => cases hread
    · rintro ⟨hpast, k, line, name, he⟩
      rw [h.refused he, told, Except.error.injEq, Prospect.report_unreadable,
        TokenReader.texts_start]
      exact ⟨(h.missing he).mpr ⟨name, rfl⟩, hpast⟩
  layout bytes other htokens hbytes hother := by
    obtain ⟨found, hfound⟩ | ⟨k, e, he⟩ := h.decided (tokens bytes)
    · rw [h.accepted hfound, h.accepted (htokens ▸ hfound)]
    · have he' : Refused (tokens other) k e := htokens ▸ he
      rw [h.refused he, ne_eq, Except.error.injEq] at hbytes
      rw [h.refused he', ne_eq, Except.error.injEq] at hother
      rw [h.refused he, h.refused he', Except.mapError, Except.mapError, unlined_told hbytes,
        unlined_told hother]
  unread bytes other k token hlast htoken hlines := by
    have hlocated := located_take htoken hlines
    have htokens : (tokens other).take (k + 1) = (tokens bytes).take (k + 1) := by
      rw [tokens, tokens, ← List.map_take, ← List.map_take, hlocated]
    obtain ⟨value, hvalue, hwidth⟩ | ⟨e, he⟩ := hlast
    · rw [h.accepted hvalue, h.accepted (h.written_congr hvalue (hwidth ▸ htokens))]
    · have hother : (located other)[k]? = some token := by
        rw [getElem?_congr hlocated (Nat.lt_succ_self k), htoken]
      rw [h.refused he, h.refused (h.refused_congr he htokens), told_congr e htoken hother]

/-- The line that an error about the tokens of a text names. It is that of the first token that does
not fit its place, or the line after the last if the text ends before that place. -/
inductive RightLine (places : List Place) (bytes : List UInt8) : ℕ → TokenFlaw → Prop where
  | token {k : ℕ} {token : Token} {flaw : TokenFlaw}
      (hfirst : firstFlaw? places (tokens bytes) = some (k, flaw))
      (htoken : (located bytes)[k]? = some token) (hflaw : ∀ name, flaw ≠ .missing name) :
      RightLine places bytes token.line flaw
  | ended {k : ℕ} {name : FileField}
      (hfirst : firstFlaw? places (tokens bytes) = some (k, .missing name))
      (hlegible : Legible bytes) : RightLine places bytes (lineCount bytes + 1) (.missing name)

theorem Governed.rightLine (h : Governed read Written width Refused)
    (places : List (List Char) → List Place)
    (hplaces : ∀ {texts k line flaw}, Refused texts k (.badToken line flaw) →
      firstFlaw? (places texts) texts = some (k, flaw))
    {bytes : List UInt8} {line : ℕ} {flaw : TokenFlaw}
    (hread : read bytes = .error (.badToken line flaw)) :
    RightLine (places (tokens bytes)) bytes line flaw := by
  obtain ⟨found, hfound⟩ | ⟨k, e, he⟩ := h.decided (tokens bytes)
  · simp [h.accepted hfound] at hread
  · rw [h.refused he, Except.error.injEq] at hread
    cases e with
    | badToken line' flaw' =>
      rw [told, Prospect.report_badToken, TokenReader.prospect_start, TokenReader.texts_start,
        TokenReader.past_start] at hread
      obtain ⟨rfl, ⟨token, htoken, rfl⟩ | ⟨hend, hlegible, rfl⟩⟩ := hread
      · refine .token (hplaces he) htoken fun name hname => ?_
        have hend := (h.missing he).mpr ⟨name, hname⟩
        simp [tokens, htoken] at hend
      · obtain ⟨name, rfl⟩ := (h.missing he).mp hend
        exact .ended (hplaces he) hlegible
    | _ => cases hread

end Sheet

end OffshoreFlights
