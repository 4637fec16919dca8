import Mathlib.Data.List.Basic
import OffshoreFlights.Text.Tokens

/-! Where the tokens of a text stand. The lines of a text are what its newlines separate, and the
tokens of a line are what blanks separate before its comment. A reader reaches the lines one after
the other, as far as they are text. What it has before it is a list of tokens, each with the number
of its line, and behind these the end of the text or a line that cannot be read. -/

namespace OffshoreFlights.Text

/-- A token of a text, with the number of the line that holds it. -/
structure Token where
  line : ℕ
  text : List Char
deriving DecidableEq

/-- The text in the bytes of a line, if they are UTF-8. -/
def decoded? (line : List UInt8) : Option (List Char) :=
  (String.fromUTF8? ⟨line.toArray⟩).map String.toList

/-- What blanks separate in a line before its comment. -/
def lineWords (text : List Char) : List (List Char) :=
  ((text.takeWhile (· ≠ '#')).splitOnP isBlank).filter (· ≠ [])

/-- The tokens of the lines before the first that is not text, where `line` lines come before. -/
def locatedAfter (line : ℕ) : List (List UInt8) → List Token
  | [] => []
  | bytes :: rest =>
    match decoded? bytes with
    | none => []
    | some text => (lineWords text).map (Token.mk (line + 1)) ++ locatedAfter (line + 1) rest

/-- The tokens of a text in their places, up to the first line that is not text. -/
def located (bytes : List UInt8) : List Token := locatedAfter 0 (bytes.splitOn 10)

/-- The tokens of a text, up to the first line that is not text. -/
def tokens (bytes : List UInt8) : List (List Char) := (located bytes).map Token.text

/-- Every line of a text is UTF-8. -/
def Legible (bytes : List UInt8) : Prop := ∀ line ∈ bytes.splitOn 10, (decoded? line).isSome

/-- The number of lines of a text: its newlines, and a last line that has none. -/
def lineCount (bytes : List UInt8) : ℕ :=
  bytes.count 10 + if bytes.getLast?.all (· == 10) then 0 else 1

theorem wordsAfter_eq (started text : List Char) :
    wordsAfter started text = (List.splitOnPPrepend isBlank text started).filter (· ≠ []) := by
  induction text generalizing started with
  | nil => by_cases h : started = [] <;> simp [wordsAfter, h]
  | cons c rest ih =>
    by_cases hc : isBlank c = true
    · by_cases h : started = [] <;>
        simp [wordsAfter, hc, h, ih, List.splitOnPPrepend]
    · simp [wordsAfter, hc, ih, List.splitOnPPrepend]

theorem tokensOf_eq (line : List Char) : tokensOf line = lineWords line := by
  rw [tokensOf, words, wordsAfter_eq, lineWords, ← List.splitOnPPrepend_nil_right]

theorem tokensOfBytes?_eq (line : List UInt8) :
    tokensOfBytes? line = (decoded? line).map lineWords := by
  simp [tokensOfBytes?, decoded?, Option.map_map, Function.comp_def, tokensOf_eq]

@[simp] theorem decoded?_nil : decoded? [] = some [] := by decide

@[simp] theorem lineWords_nil : lineWords [] = [] := rfl

theorem lines_newline (rest : List UInt8) : lines (10 :: rest) = [] :: lines rest := by
  simp [lines]

theorem lines_cons {b : UInt8} (hb : b ≠ 10) (rest : List UInt8) :
    lines (b :: rest) = (b :: (lines rest).headD []) :: (lines rest).tail := by
  cases hrest : lines rest <;> simp [lines, hb, hrest]

theorem lines_ne_nil (b : UInt8) (rest : List UInt8) : lines (b :: rest) ≠ [] := by
  by_cases hb : b = 10
  · simp [hb, lines_newline]
  · simp [lines_cons hb]

/-- A newline at the end of a text opens a line without bytes, which a reader never reaches. -/
theorem splitOn_newline (bytes : List UInt8) :
    bytes.splitOn 10 = lines bytes ++ if bytes.getLast?.all (· == 10) then [[]] else [] := by
  induction bytes with
  | nil => rfl
  | cons b rest ih =>
    rw [List.splitOn_cons_eq_if_modifyHead, ih]
    cases rest with
    | nil => by_cases hb : b = 10 <;> simp [hb, lines]
    | cons c rest =>
      obtain ⟨l, ls, hl⟩ := List.exists_cons_of_ne_nil (lines_ne_nil c rest)
      by_cases hb : b = 10
      · simp [hb, lines_newline, hl, List.getLast?_cons_cons]
      · simp [hb, lines_cons hb, hl, List.getLast?_cons_cons]

theorem length_splitOn (bytes : List UInt8) : (bytes.splitOn 10).length = bytes.count 10 + 1 := by
  induction bytes with
  | nil => rfl
  | cons b rest ih =>
    rw [List.splitOn_cons_eq_if_modifyHead, List.count_cons]
    split <;> simp [ih]

theorem length_lines (bytes : List UInt8) : (lines bytes).length = lineCount bytes := by
  have hlength := congrArg List.length (splitOn_newline bytes)
  rw [length_splitOn, List.length_append] at hlength
  unfold lineCount
  split at hlength <;> simp_all

theorem locatedAfter_blank (line : ℕ) (ls : List (List UInt8)) :
    locatedAfter line (ls ++ [[]]) = locatedAfter line ls := by
  induction ls generalizing line with
  | nil => simp [locatedAfter]
  | cons bytes rest ih => cases h : decoded? bytes <;> simp [locatedAfter, h, ih]

theorem locatedAfter_lines (bytes : List UInt8) :
    locatedAfter 0 (lines bytes) = located bytes := by
  rw [located, splitOn_newline]
  split
  · exact (locatedAfter_blank 0 _).symm
  · simp

theorem legible_iff (bytes : List UInt8) :
    Legible bytes ↔ ∀ line ∈ lines bytes, (decoded? line).isSome := by
  rw [Legible, splitOn_newline]
  split <;> simp [or_imp, forall_and]

theorem lt_line_of_mem {line : ℕ} {ls : List (List UInt8)} {token : Token}
    (h : token ∈ locatedAfter line ls) : line < token.line := by
  induction ls generalizing line with
  | nil => simp [locatedAfter] at h
  | cons bytes rest ih =>
    cases hbytes : decoded? bytes with
    | none => simp [locatedAfter, hbytes] at h
    | some text =>
      simp only [locatedAfter, hbytes, List.mem_append, List.mem_map] at h
      obtain ⟨word, -, rfl⟩ | h := h
      · exact Nat.lt_succ_self line
      · exact Nat.lt_of_succ_lt (ih h)

/-- The lines up to that of a token settle the tokens up to it. -/
theorem locatedAfter_take {line k : ℕ} {ls ls' : List (List UInt8)} {token : Token}
    (h : (locatedAfter line ls)[k]? = some token)
    (hls : ls'.take (token.line - line) = ls.take (token.line - line)) :
    (locatedAfter line ls').take (k + 1) = (locatedAfter line ls).take (k + 1) := by
  induction ls generalizing line k ls' with
  | nil => simp [locatedAfter] at h
  | cons bytes rest ih =>
    have hline := lt_line_of_mem (List.mem_of_getElem? h)
    obtain ⟨m, hm⟩ : ∃ m, token.line - line = m + 1 := ⟨token.line - line - 1, by omega⟩
    rw [hm, List.take_succ_cons] at hls
    obtain ⟨rest', rfl, hrest⟩ : ∃ rest', ls' = bytes :: rest' ∧ rest'.take m = rest.take m := by
      cases ls' with
      | nil => simp at hls
      | cons bytes' rest' => simp_all
    cases hbytes : decoded? bytes with
    | none => simp [locatedAfter, hbytes] at h
    | some text =>
      simp only [locatedAfter, hbytes] at h ⊢
      rw [List.take_append, List.take_append]
      congr 1
      -- A token among the words of the first line leaves nothing to take from the lines after it.
      by_cases hk : k < (lineWords text).length
      · simp [Nat.sub_eq_zero_of_le (Nat.succ_le_of_lt hk)]
      · rw [List.getElem?_append_right (by simpa using hk)] at h
        rw [List.length_map] at h ⊢
        rw [show k + 1 - (lineWords text).length = k - (lineWords text).length + 1 by omega]
        exact ih h (by rwa [show token.line - (line + 1) = m by omega])

theorem located_take {bytes other : List UInt8} {k : ℕ} {token : Token}
    (h : (located bytes)[k]? = some token)
    (hlines : (other.splitOn 10).take token.line = (bytes.splitOn 10).take token.line) :
    (located other).take (k + 1) = (located bytes).take (k + 1) :=
  locatedAfter_take h hlines

/-- What a reader has before it. -/
structure Prospect where
  tokens : List Token
  /-- The number of the line past the last one, if all the lines to come are text. -/
  past : Option ℕ

namespace Prospect

def texts (p : Prospect) : List (List Char) := p.tokens.map Token.text

def drop (p : Prospect) (n : ℕ) : Prospect := { p with tokens := p.tokens.drop n }

/-- The report of a flaw at a place: on the line of the token there, or past the last line. -/
def report {α : Type} (p : Prospect) (k : ℕ) (flaw : TokenFlaw) : Error α :=
  match p.tokens[k]?, p.past with
  | some token, _ => .badToken token.line flaw
  | none, some line => .badToken line flaw
  | none, none => .unreadable

@[simp] theorem texts_drop (p : Prospect) (n : ℕ) : (p.drop n).texts = p.texts.drop n := by
  simp [texts, drop]

theorem drop_drop (p : Prospect) (m n : ℕ) : (p.drop m).drop n = p.drop (m + n) := by
  simp [drop]

theorem report_drop {α : Type} (p : Prospect) (n k : ℕ) (flaw : TokenFlaw) :
    ((p.drop n).report k flaw : Error α) = p.report (n + k) flaw := by
  simp [report, drop]

theorem report_unreadable {α : Type} (p : Prospect) (k : ℕ) (flaw : TokenFlaw) :
    (p.report k flaw : Error α) = .unreadable ↔ p.texts[k]? = none ∧ p.past = none := by
  cases htoken : p.tokens[k]? <;> cases hpast : p.past <;> simp [report, texts, htoken, hpast]

theorem report_badToken {α : Type} {p : Prospect} {k line : ℕ} {flaw flaw' : TokenFlaw} :
    (p.report k flaw : Error α) = .badToken line flaw' ↔ flaw = flaw' ∧
      ((∃ token, p.tokens[k]? = some token ∧ token.line = line) ∨
        p.texts[k]? = none ∧ p.past = some line) := by
  cases htoken : p.tokens[k]? <;> cases hpast : p.past <;>
    simp [report, texts, htoken, hpast, and_comm]

/-- A report names its flaw, unless it cannot be read. -/
theorem report_cases {α : Type} (p : Prospect) (k : ℕ) (flaw : TokenFlaw) :
    (p.report k flaw : Error α) = .unreadable ∨ ∃ line, (p.report k flaw : Error α) =
      .badToken line flaw := by
  unfold report
  split
  · exact .inr ⟨_, rfl⟩
  · exact .inr ⟨_, rfl⟩
  · exact .inl rfl

end Prospect

namespace TokenReader

/-- The tokens of the line reached, then those of the lines to come. -/
def prospect (r : TokenReader) : Prospect where
  tokens := r.pending.map (Token.mk r.line) ++ locatedAfter r.line r.lines
  past := if r.lines.all (fun line => (decoded? line).isSome) then
    some (r.line + r.lines.length + 1) else none

theorem prospect_start (bytes : List UInt8) :
    (start bytes).prospect.tokens = located bytes := by
  simp [prospect, start, locatedAfter_lines]

theorem texts_start (bytes : List UInt8) : (start bytes).prospect.texts = Text.tokens bytes := by
  rw [Prospect.texts, prospect_start, Text.tokens]

theorem past_start (bytes : List UInt8) (line : ℕ) :
    (start bytes).prospect.past = some line ↔ Legible bytes ∧ line = lineCount bytes + 1 := by
  rw [legible_iff, ← length_lines, eq_comm (a := line)]
  simp [prospect, start]

theorem past_start_none (bytes : List UInt8) :
    (start bytes).prospect.past = none ↔ ¬Legible bytes := by
  rw [legible_iff]
  simp [prospect, start]

/-- What the next token of a reader is, by what it has before it. -/
inductive Step {α : Type} (p : Prospect) :
    Except (Error α) (Option (List Char) × TokenReader) → Prop where
  | token (token : Token) {r : TokenReader} (htokens : p.tokens = token :: r.prospect.tokens)
      (hpast : r.prospect.past = p.past) (hline : r.line = token.line) :
      Step p (.ok (some token.text, r))
  | ended {r : TokenReader} (htokens : p.tokens = []) (hpast : p.past = some (r.line + 1)) :
      Step p (.ok (none, r))
  | unreadable (htokens : p.tokens = []) (hpast : p.past = none) : Step p (.error .unreadable)

theorem past_cons {bytes : List UInt8} (h : (decoded? bytes).isSome) (rest : List (List UInt8))
    (pending : List (List Char)) (line : ℕ) :
    (prospect ⟨rest, pending, line + 1⟩).past = (prospect ⟨bytes :: rest, [], line⟩).past := by
  simp [prospect, h, Nat.add_right_comm, Nat.add_assoc]

theorem advance_step {α : Type} (line : ℕ) (ls : List (List UInt8)) :
    Step (α := α) (prospect ⟨ls, [], line⟩) (advance line ls) := by
  induction ls generalizing line with
  | nil => exact .ended rfl rfl
  | cons bytes rest ih =>
    cases hbytes : decoded? bytes with
    | none =>
      rw [advance, tokensOfBytes?_eq, hbytes]
      exact .unreadable (by simp [prospect, locatedAfter, hbytes]) (by simp [prospect, hbytes])
    | some text =>
      have hpast := past_cons (by simp [hbytes] : (decoded? bytes).isSome) rest
      rw [advance, tokensOfBytes?_eq, hbytes, Option.map_some]
      cases hwords : lineWords text with
      | nil =>
        have hsame : prospect ⟨bytes :: rest, [], line⟩ = prospect ⟨rest, [], line + 1⟩ := by
          rw [Prospect.mk.injEq]
          exact ⟨by simp [prospect, locatedAfter, hbytes, hwords], (hpast [] line).symm⟩
        exact hsame ▸ ih (line + 1)
      | cons word words =>
        exact .token ⟨line + 1, word⟩
          (by simp [prospect, locatedAfter, hbytes, hwords]) (hpast words line) rfl

theorem next_step {α : Type} (r : TokenReader) : Step (α := α) r.prospect r.next := by
  obtain ⟨ls, pending, line⟩ := r
  cases pending with
  | nil => exact advance_step line ls
  | cons token pending => exact .token ⟨line, token⟩ rfl rfl rfl

end TokenReader

end OffshoreFlights.Text
