/-
  How a text falls into lexemes.

  A lexeme belongs to a `LexemeClass`: one of the ignored ones (blanks, line ends, comments, commas,
  the byte order mark), a punctuator, a word, a number or a string.  `LexemeClass.measure` says how
  many characters of a class stand at the front of a text, `0` if none do; every class has lexemes
  of one character or more, so `0` is free to say that.

  The classes are tried in the order of `LexemeClass.table`, and the first that finds a lexeme
  takes it.  The order matters in two places: a number with a fraction or an exponent is looked for
  before a whole number, and a block string before an inline one, since each begins like the other.

  `pieces` cuts a whole text: lexemes, and between them runs of characters that begin none.
  Nothing is lost: the texts of the pieces, in order, are the text (`pieces_flatten`).
-/
import GraphQL.Token.Kind

namespace GraphQL

/-! ## Classes of characters -/

/-- A decimal digit. -/
def isDigit (c : Char) : Bool := '0' ≤ c && c ≤ '9'

/-- A decimal digit other than zero. -/
def isNonzeroDigit (c : Char) : Bool := '1' ≤ c && c ≤ '9'

/-- A hexadecimal digit, in either case. -/
def isHexDigit (c : Char) : Bool := isDigit c || ('a' ≤ c && c ≤ 'f') || ('A' ≤ c && c ≤ 'F')

/-- A character that may begin a name: an ASCII letter or the underscore. -/
def isNameStart (c : Char) : Bool := c == '_' || ('A' ≤ c && c ≤ 'Z') || ('a' ≤ c && c ≤ 'z')

/-- A character that may continue a name. -/
def isNamePart (c : Char) : Bool := isNameStart c || isDigit c

/-- The characters that stand for themselves or for a control character after a backslash. -/
def isSimpleEscape (c : Char) : Bool :=
  c == '\\' || c == '/' || c == '"' || c == 'b' || c == 'f' || c == 'n' || c == 'r' || c == 't'

/-! ## Measures

  Each measure answers how many characters of its class stand at the front of a text. -/

/-- The characters of `p` at the front. -/
def runLength (p : Char → Bool) (cs : List Char) : Nat := (cs.takeWhile p).length

/-- A fixed text. -/
def literalLength (text : List Char) (cs : List Char) : Nat :=
  if text.isPrefixOf cs then text.length else 0

/-- One line end: CR LF together, or either alone. -/
def lineEndLength : List Char → Nat
  | '\r' :: '\n' :: _ => 2
  | '\r' :: _ => 1
  | '\n' :: _ => 1
  | _ => 0

/-- A number sign and all that follows it on its line. -/
def commentLength : List Char → Nat
  | '#' :: rest => 1 + runLength (fun c => c != '\n' && c != '\r') rest
  | _ => 0

/-- A name: a letter or underscore, then letters, digits and underscores. -/
def wordLength : List Char → Nat
  | c :: rest => if isNameStart c then 1 + runLength isNamePart rest else 0
  | [] => 0

/-- Digits without a leading zero, or the digit zero alone. -/
def naturalLength : List Char → Nat
  | '0' :: _ => 1
  | c :: rest => if isNonzeroDigit c then 1 + runLength isDigit rest else 0
  | [] => 0

/-- A whole number with an optional minus sign. -/
def intLength : List Char → Nat
  | '-' :: rest => if naturalLength rest = 0 then 0 else 1 + naturalLength rest
  | cs => naturalLength cs

/-- A point and the digits after it. -/
def fractionLength : List Char → Nat
  | '.' :: rest => if runLength isDigit rest = 0 then 0 else 1 + runLength isDigit rest
  | _ => 0

/-- Digits after an optional sign. -/
def signedDigitsLength : List Char → Nat
  | '+' :: rest => if runLength isDigit rest = 0 then 0 else 1 + runLength isDigit rest
  | '-' :: rest => if runLength isDigit rest = 0 then 0 else 1 + runLength isDigit rest
  | cs => runLength isDigit cs

/-- An exponent mark and its digits. -/
def exponentLength : List Char → Nat
  | 'e' :: rest => if signedDigitsLength rest = 0 then 0 else 1 + signedDigitsLength rest
  | 'E' :: rest => if signedDigitsLength rest = 0 then 0 else 1 + signedDigitsLength rest
  | _ => 0

/-- A whole number with a fraction, an exponent, or both. -/
def floatLength (cs : List Char) : Nat :=
  let whole := intLength cs
  let fraction := fractionLength (cs.drop whole)
  let tail := fraction + exponentLength (cs.drop (whole + fraction))
  if whole = 0 || tail = 0 then 0 else whole + tail

/-- What is left of a block string after its opening quotes, up to and with the closing ones.  A
    backslash before three quotes makes them part of the text; nothing else is an escape. -/
def blockBodyLength : List Char → Option Nat
  | '\\' :: '"' :: '"' :: '"' :: rest => (blockBodyLength rest).map (· + 4)
  | '"' :: '"' :: '"' :: _ => some 3
  | _ :: rest => (blockBodyLength rest).map (· + 1)
  | [] => none

/-- A string between three quotes. -/
def blockStringLength : List Char → Nat
  | '"' :: '"' :: '"' :: rest =>
    match blockBodyLength rest with
    | some n => 3 + n
    | none => 0
  | _ => 0

/-- What is left of an inline string after its opening quote, up to and with the closing one.  A
    line end, a backslash that begins no escape, and the end of the text are refused. -/
def inlineBodyLength : List Char → Option Nat
  | '"' :: _ => some 1
  | '\\' :: 'u' :: a :: b :: c :: d :: rest =>
    if isHexDigit a && isHexDigit b && isHexDigit c && isHexDigit d then
      (inlineBodyLength rest).map (· + 6)
    else none
  | '\\' :: e :: rest => if isSimpleEscape e then (inlineBodyLength rest).map (· + 2) else none
  | c :: rest =>
    if c == '\\' || c == '\n' || c == '\r' then none else (inlineBodyLength rest).map (· + 1)
  | [] => none

/-- A string between quotes. -/
def inlineStringLength : List Char → Nat
  | '"' :: rest =>
    match inlineBodyLength rest with
    | some n => 1 + n
    | none => 0
  | _ => 0

/-! ## Classes -/

/-- A class of lexemes. -/
inductive LexemeClass where
  | blank | byteOrderMark | lineEnd | comment | comma
  | mark (p : Punctuator)
  | word | float | int | blockString | inlineString
deriving DecidableEq, Repr

namespace LexemeClass

/-- How many characters of the class stand at the front of a text. -/
def measure : LexemeClass → List Char → Nat
  | .blank => runLength fun c => c == ' ' || c == '\t'
  | .byteOrderMark => literalLength ['\uFEFF']
  | .lineEnd => lineEndLength
  | .comment => commentLength
  | .comma => literalLength [',']
  | .mark p => literalLength p.text.toList
  | .word => wordLength
  | .float => floatLength
  | .int => intLength
  | .blockString => blockStringLength
  | .inlineString => inlineStringLength

/-- The classes in the order in which they are tried. -/
def table : List LexemeClass :=
  [.blank, .byteOrderMark, .lineEnd, .comment, .comma] ++ Punctuator.all.map .mark
    ++ [.word, .float, .int, .blockString, .inlineString]

/-- The kind of token that a lexeme is; the ignored classes give none. -/
def tokenKind? : LexemeClass → List Char → Option TokenKind
  | .mark p, _ => some (.punctuator p)
  | .word, text => some (.ofWord (String.ofList text))
  | .float, _ => some .float
  | .int, _ => some .int
  | .blockString, _ => some .blockString
  | .inlineString, _ => some .inlineString
  | _, _ => none

/-- The first class of the table that has a lexeme at the front of a text. -/
def first? (cs : List Char) : Option LexemeClass := table.find? fun c => 0 < c.measure cs

theorem measure_pos_of_first? {cs : List Char} {c : LexemeClass} (h : first? cs = some c) :
    0 < c.measure cs := by
  simpa using List.find?_some h

end LexemeClass

/-! ## Pieces -/

/-- A stretch of text: a lexeme of a class, or characters that begin no lexeme. -/
inductive Piece where
  | lexeme (c : LexemeClass) (text : List Char)
  | stray (text : List Char)
deriving DecidableEq, Repr

/-- The characters of a piece. -/
def Piece.text : Piece → List Char
  | .lexeme _ text => text
  | .stray text => text

/-- Puts one more stray character in front; neighbouring strays are one piece. -/
def Piece.consStray (c : Char) : List Piece → List Piece
  | .stray text :: rest => .stray (c :: text) :: rest
  | rest => .stray [c] :: rest

/-- The pieces of a text.  A lexeme takes at least one character, so the rest is shorter. -/
def pieces (cs : List Char) : List Piece :=
  match cs with
  | [] => []
  | c :: rest =>
    match _h : LexemeClass.first? (c :: rest) with
    | some kind =>
      .lexeme kind ((c :: rest).take (kind.measure (c :: rest))) ::
        pieces ((c :: rest).drop (kind.measure (c :: rest)))
    | none => Piece.consStray c (pieces rest)
termination_by cs.length
decreasing_by
  · have := LexemeClass.measure_pos_of_first? _h
    simp only [List.length_drop, List.length_cons]
    omega
  · simp

theorem Piece.flatten_consStray (c : Char) (ps : List Piece) :
    ((consStray c ps).map text).flatten = c :: (ps.map text).flatten := by
  unfold consStray
  split <;> simp [text]

/-- The pieces of a text, put together again, are the text. -/
theorem pieces_flatten (cs : List Char) : ((pieces cs).map Piece.text).flatten = cs := by
  fun_induction pieces cs with
  | case1 => rfl
  | case2 c rest kind _ ih => simp [Piece.text, ih]
  | case3 c rest _ ih => rw [Piece.flatten_consStray, ih]

/-! ## Examples -/

example : floatLength "-1.5e3x".toList = 6 := by cbv
example : blockStringLength "\"\"\"a\\\"\"\"\"\"\"b".toList = 11 := by cbv
example : (pieces "a ?!".toList).map Piece.text = [['a'], [' '], ['?'], ['!']] := by cbv

end GraphQL
