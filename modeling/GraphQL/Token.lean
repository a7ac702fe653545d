/-
  Tokens, and the tokens of a text.

  A `Token` is a lexeme with its kind and its place.  `Scan.ofSource` reads a text: it places the
  pieces of `GraphQL.Lexeme` one after the other, keeps the lexemes that are not ignored as tokens,
  and reports each run of stray characters as one `LexicalError`.  Reading never fails and never
  stops early.

  A token that a text does not show can still stand in a tree, where the parser put it to go on
  after a mistake.  Such a token is `inserted`: its text is empty and it has no place.
-/
import GraphQL.Lexeme
import GraphQL.Source

namespace GraphQL

/-! ## Tokens -/

/-- A classified lexeme in its place. -/
structure Token where
  kind : TokenKind
  text : String
  span : Span := {}
  /-- Whether the parser put the token in for a missing one. -/
  inserted : Bool := false
deriving DecidableEq, Repr, Inhabited

namespace Token

/-- Whether the token is what a demand asks for. -/
def meets (t : Token) (demand : TokenKind) : Bool := t.kind.satisfies demand

/-- The bytes of the token; an inserted token has no place. -/
def bytes (t : Token) : ByteSpan := if t.inserted then .nowhere else t.span.bytes

/-- What stands behind the last of some tokens: the end of the input, an empty token. -/
def endOf (tokens : List Token) : Token :=
  match tokens.getLast? with
  | some last => { kind := .endOfInput, text := "", span := last.span.atStop }
  | none => { kind := .endOfInput, text := "" }

/-- The token put in where `demand` was missing before `found`. -/
def missing (demand : TokenKind) (found : Token) : Token :=
  { kind := demand, text := "", span := found.span.atStart, inserted := true }

end Token

/-! ## Stray characters -/

/-- A run of characters that begin no lexeme. -/
structure LexicalError where
  /-- The first of them. -/
  first : Char
  /-- How many there are. -/
  count : Nat
  span : Span
deriving DecidableEq, Repr

/-- The wording of a lexical error. -/
def LexicalError.message (e : LexicalError) : String :=
  s!"unexpected character: ->{e.first}<- at offset: {e.span.start.offset}, "
    ++ s!"skipped {e.count} characters."

/-! ## Reading a text -/

/-- A piece of text together with the positions around it. -/
structure Placed where
  piece : Piece
  start : Position
  stop : Position
deriving DecidableEq, Repr

/-- Sets pieces one after the other, the first at `start`. -/
def Placed.chain (start : Position) : List Piece → List Placed
  | [] => []
  | p :: rest => ⟨p, start, start.advance p.text⟩ :: chain (start.advance p.text) rest

namespace Placed

/-- The span of a placed piece, in a file if one is known. -/
def span (p : Placed) (file : Option String) : Span := ⟨p.start, p.stop, file⟩

/-- The token that a piece is, if it is one. -/
def token? (file : Option String) (p : Placed) : Option Token :=
  match p.piece with
  | .lexeme c text =>
    (c.tokenKind? text).map fun kind =>
      { kind, text := String.ofList text, span := p.span file }
  | .stray _ => none

/-- The error that a piece is, if it is one. -/
def error? (file : Option String) (p : Placed) : Option LexicalError :=
  match p.piece with
  | .stray (c :: rest) => some ⟨c, rest.length + 1, p.span file⟩
  | _ => none

end Placed

/-- What reading a text gives. -/
structure Scan where
  tokens : List Token := []
  errors : List LexicalError := []
deriving DecidableEq, Repr

/-- The tokens of a text, with a report of each run of stray characters. -/
def Scan.ofSource (source : String) (file : Option String := none) : Scan :=
  let placed := Placed.chain {} (pieces source.toList)
  { tokens := placed.filterMap (Placed.token? file)
    errors := placed.filterMap (Placed.error? file) }

end GraphQL
