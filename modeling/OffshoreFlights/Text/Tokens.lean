import OffshoreFlights.Error
import OffshoreFlights.Text.Blank

/-! The tokens of a file. A file is read line by line, as its tokens are asked for: a `#` hides the
rest of its line, and blanks separate tokens. A token is reported with the number of its line. -/

namespace OffshoreFlights.Text

/-- The lines of a text, each without the newline that ends it. -/
def lines : List UInt8 → List (List UInt8)
  | [] => []
  | b :: rest =>
    if b = 10 then [] :: lines rest
    else match lines rest with
      | [] => [[b]]
      | l :: ls => (b :: l) :: ls

/-- The words of a text after a started word, whose characters come in reverse. -/
def wordsAfter (started : List Char) : List Char → List (List Char)
  | [] => if started = [] then [] else [started.reverse]
  | c :: rest =>
    if isBlank c then
      if started = [] then wordsAfter [] rest else started.reverse :: wordsAfter [] rest
    else wordsAfter (c :: started) rest

/-- The maximal runs of characters that are not blank. -/
def words (text : List Char) : List (List Char) := wordsAfter [] text

/-- The tokens of a line that holds text. -/
def tokensOf (line : List Char) : List (List Char) := words (line.takeWhile (· ≠ '#'))

/-- The tokens of a line, if its bytes are text in UTF-8. -/
def tokensOfBytes? (line : List UInt8) : Option (List (List Char)) :=
  (String.fromUTF8? ⟨line.toArray⟩).map fun text => tokensOf text.toList

/-- A file that is being read. -/
structure TokenReader where
  /-- The lines that are still to come. -/
  lines : List (List UInt8)
  /-- The tokens of the line reached that have not been taken. -/
  pending : List (List Char)
  /-- The number of lines reached. -/
  line : Nat

namespace TokenReader

/-- A file of which nothing has been read. -/
def start (bytes : List UInt8) : TokenReader := ⟨Text.lines bytes, [], 0⟩

/-- The next token, if there is one, found in the lines that are still to come. -/
def advance {α : Type} :
    Nat → List (List UInt8) → Except (Error α) (Option (List Char) × TokenReader)
  | line, [] => .ok (none, ⟨[], [], line⟩)
  | line, bytes :: rest =>
    match tokensOfBytes? bytes with
    | none => .error .unreadable
    | some [] => advance (line + 1) rest
    | some (token :: pending) => .ok (some token, ⟨rest, pending, line + 1⟩)

/-- Takes the next token. -/
def next {α : Type} (r : TokenReader) : Except (Error α) (Option (List Char) × TokenReader) :=
  match r.pending with
  | token :: pending => .ok (some token, { r with pending })
  | [] => advance r.line r.lines

end TokenReader

/-- A reading of part of a file. -/
abbrev Reading (α : Type) := StateT TokenReader (Except (Error α))

/-- Reads the token of a field. -/
def field {α β : Type} (name : FileField) (read? : List Char → Option β) : Reading α β := do
  let r ← get
  let (token?, r) ← (r.next : Except (Error α) _)
  set r
  match token? with
  | none => throw (.badToken (r.line + 1) (.missing name))
  | some token =>
    match read? token with
    | none => throw (.badToken r.line (.invalid name (String.ofList token)))
    | some value => return value

end OffshoreFlights.Text
