/-
  How mistakes are shown.

  A `Diagnostic` is what a reader is told: a message, the stretch of text that it is about, and the
  rules that were being read there.  It has a short form of one line (`Diagnostic.oneLine`) and a
  long form (`Diagnostic.detailed`), which shows the line of the source where the stretch begins and
  underlines the part of the stretch on that line, but always at least one column.

  Lines and columns are shown from one on, columns in characters.  The line shown is counted as an
  editor of plain text counts them (`shownLines`): LF and CR LF end a line, and what stands behind
  the last line end is a line only if it is not empty.

  The carets are moved under the mistake by padding, and there is a most that text can be padded to
  (`widestPadding`).  A mistake further to the right cannot be laid out in the long form, and then
  nothing of the report is: `Layout` is the type of what is laid out or breaks off.
-/
import GraphQL.SyntaxError
import GraphQL.Token

namespace GraphQL

/-! ## Lines of a source -/

/-- The lines of a text, without their ends. -/
def shownLines : List Char → List (List Char)
  | [] => []
  | '\n' :: rest => [] :: shownLines rest
  | '\r' :: '\n' :: rest => [] :: shownLines rest
  | c :: rest =>
    match shownLines rest with
    | [] => [[c]]
    | line :: others => (c :: line) :: others

/-- A row of `n` equal characters. -/
def row (n : Nat) (c : Char) : String := String.ofList (List.replicate n c)

/-! ## Padding -/

/-- Why a text cannot be laid out. -/
inductive LayoutError where
  /-- It is to be padded to more columns than can be asked for. -/
  | tooWide
deriving DecidableEq, Repr

/-- The wording of what went wrong. -/
def LayoutError.message : LayoutError → String
  | .tooWide => "Formatting argument out of range"

/-- What is laid out, if it can be. -/
abbrev Layout := Except LayoutError

/-- The most columns that text can be padded to: a width is a 16-bit word. -/
def widestPadding : Nat := 65535

/-- So many columns of padding. -/
def padding (columns : Nat) : Layout String :=
  if columns ≤ widestPadding then .ok (row columns ' ') else .error .tooWide

theorem padding_of_le {columns : Nat} (narrow : columns ≤ widestPadding) :
    padding columns = .ok (row columns ' ') := if_pos narrow

theorem padding_of_lt {columns : Nat} (wide : widestPadding < columns) :
    padding columns = .error .tooWide := if_neg (Nat.not_le.mpr wide)

/-! ## Diagnostics -/

/-- A mistake as it is shown. -/
structure Diagnostic where
  message : String
  span : Span
  /-- The rules that were being read, outermost first. -/
  stack : List Rule := []

/-- A lexical error as it is shown. -/
def LexicalError.diagnostic (e : LexicalError) : Diagnostic :=
  { message := e.message, span := e.span }

/-- A syntax error as it is shown. -/
def SyntaxError.diagnostic (e : SyntaxError) : Diagnostic :=
  { message := e.fault.message, span := e.span, stack := e.stack }

namespace Diagnostic

/-- The file, as it is shown. -/
def fileName (d : Diagnostic) : String := d.span.file.getD "<input>"

/-- Where the mistake begins: the file, the line and the column. -/
def place (d : Diagnostic) : String :=
  s!"{d.fileName}:{d.span.start.line + 1}:{d.span.start.column + 1}"

/-- The short form. -/
def oneLine (d : Diagnostic) : String := s!"{d.place}: error: {d.message}"

/-- How many columns of a line are underlined. -/
def underlined (d : Diagnostic) (line : List Char) : Nat :=
  let stop := if d.span.stop.line = d.span.start.line then d.span.stop.column else line.length
  max 1 (stop - d.span.start.column)

/-- The lines that show where the mistake is.  The line number stands in at least two columns, and
    it has so few digits that the margin can always be padded; the column of the mistake may be too
    far to the right. -/
def snippet (d : Diagnostic) (line : List Char) : Layout (List String) := do
  let number := toString (d.span.start.line + 1)
  let width := max 2 number.length
  let margin := row width ' '
  let lead ← padding d.span.start.column
  return [ margin ++ " |"
    , row (width - number.length) ' ' ++ number ++ " | " ++ String.ofList line
    , margin ++ " | " ++ lead ++ row (d.underlined line) '^' ]

/-- The rules that were being read, as a note; none if none was. -/
def note (d : Diagnostic) : List String :=
  if d.stack.isEmpty then []
  else ["   = note: while parsing " ++ " > ".intercalate (d.stack.map Rule.name)]

/-- The long form, each line ended; it shows the source if there is one. -/
def detailed (d : Diagnostic) (source : Option String) : Layout String := do
  let shown ←
    match source.bind fun text => (shownLines text.toList)[d.span.start.line]? with
    | some line => d.snippet line
    | none => pure []
  return String.join <|
    (["error: " ++ d.message, "  --> " ++ d.place] ++ shown ++ d.note).map (· ++ "\n")

end Diagnostic

/-! ## Reports -/

/-- In which form syntax errors are reported. -/
inductive ErrorFormat where
  | detailed | oneLine
deriving DecidableEq, Repr, Inhabited

/-- A diagnostic in a form. -/
def Diagnostic.inFormat (d : Diagnostic) (source : Option String) : ErrorFormat → Layout String
  | .detailed => d.detailed source
  | .oneLine => pure d.oneLine

/-- The report on a text: the lexical errors, always in their short form, then the syntax errors.
    If one of these cannot be laid out there is no report. -/
def report (format : ErrorFormat) (lexical : List LexicalError) (errors : List SyntaxError)
    (source : Option String) : Layout String := do
  let shown ← errors.mapM fun e => e.diagnostic.inFormat source format
  return "\n".intercalate (lexical.map (fun e => e.diagnostic.oneLine) ++ shown)

/-! ## Examples -/

example : shownLines ['a', '\r', '\n', '\r', 'b', '\n'] = [['a'], ['\r', 'b']] := by decide
example : shownLines ['\n', 'a'] = [[], ['a']] := by decide

end GraphQL
