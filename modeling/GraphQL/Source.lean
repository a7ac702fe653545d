/-
  Places in a source text.

  A `Position` counts lines, characters, UTF-16 units and bytes at once, because the readers of a
  diagnostic count columns in different units.  `Position.advance` walks a position over a text; a
  line ends at LF, at CR, and at CR LF taken together, so no column ever counts a line end.

  A `Span` is a half-open stretch between two positions of one file.  A `ByteSpan` keeps only the
  two byte offsets.  A node of a tree that no token supports has no place: its span is
  `ByteSpan.nowhere`, which is neutral for `ByteSpan.merge`.
-/

namespace GraphQL

/-! ## Positions -/

/-- A place in a text, counted from zero in every unit. -/
structure Position where
  /-- Line ends before this place. -/
  line : Nat := 0
  /-- Characters since the last line end. -/
  column : Nat := 0
  /-- UTF-16 units since the last line end. -/
  units : Nat := 0
  /-- Bytes of UTF-8 since the start of the text. -/
  offset : Nat := 0
deriving DecidableEq, Repr, Inhabited

/-- How many UTF-16 units a character takes: two beyond the basic plane. -/
def utf16Units (c : Char) : Nat := if c.toNat < 0x10000 then 1 else 2

namespace Position

/-- The place after a line end of `bytes` bytes. -/
def nextLine (p : Position) (bytes : Nat) : Position :=
  { line := p.line + 1, column := 0, units := 0, offset := p.offset + bytes }

/-- The place after one character that ends no line. -/
def nextColumn (p : Position) (c : Char) : Position :=
  { p with column := p.column + 1, units := p.units + utf16Units c,
           offset := p.offset + c.utf8Size }

/-- The place after a stretch of text.  CR LF is one line end, so it is looked for first. -/
def advance (p : Position) : List Char → Position
  | [] => p
  | '\r' :: '\n' :: rest => (p.nextLine 2).advance rest
  | '\r' :: rest => (p.nextLine 1).advance rest
  | '\n' :: rest => (p.nextLine 1).advance rest
  | c :: rest => (p.nextColumn c).advance rest

end Position

/-- The bytes that a text takes in UTF-8. -/
def utf8Length : List Char → Nat
  | [] => 0
  | c :: rest => c.utf8Size + utf8Length rest

/-- Over a text a position moves on by the bytes of the text, whatever lines it has. -/
theorem Position.offset_advance (p : Position) (cs : List Char) :
    (p.advance cs).offset = p.offset + utf8Length cs := by
  have cr : '\r'.utf8Size = 1 := rfl
  have lf : '\n'.utf8Size = 1 := rfl
  fun_induction Position.advance p cs with
  | case1 p => rfl
  | case2 p rest ih => rw [ih]; simp only [nextLine, utf8Length, cr, lf]; omega
  | case3 p rest _ ih => rw [ih]; simp only [nextLine, utf8Length, cr]; omega
  | case4 p rest ih => rw [ih]; simp only [nextLine, utf8Length, lf]; omega
  | case5 p c rest _ _ _ ih => rw [ih]; simp only [nextColumn, utf8Length]; omega

/-! ## Spans of positions -/

/-- The stretch from `start` up to and without `stop`, in a file if one is known. -/
structure Span where
  start : Position := {}
  stop : Position := {}
  file : Option String := none
deriving DecidableEq, Repr, Inhabited

/-- The empty stretch where `s` begins. -/
def Span.atStart (s : Span) : Span := { s with stop := s.start }

/-- The empty stretch where `s` ends. -/
def Span.atStop (s : Span) : Span := { s with start := s.stop }

/-! ## Spans of bytes -/

/-- The bytes from `start` up to and without `stop`. -/
structure ByteSpan where
  start : Nat
  stop : Nat
deriving DecidableEq, Repr

namespace ByteSpan

/-- Offsets are 32-bit words; the largest of them is never a place. -/
def wordLimit : Nat := 4294967296

/-- The span of what has no place in the text. -/
def nowhere : ByteSpan := ⟨wordLimit - 1, wordLimit - 1⟩

instance : Inhabited ByteSpan := ⟨nowhere⟩

/-- Whether the span is a place. -/
def isPlace (s : ByteSpan) : Bool := s != nowhere

/-- The number of bytes, as a 32-bit word. -/
def length (s : ByteSpan) : Nat :=
  if s.isPlace then (s.stop + wordLimit - s.start) % wordLimit else 0

/-- The least span that covers two; what has no place adds nothing. -/
def merge (a b : ByteSpan) : ByteSpan :=
  if a.isPlace then
    if b.isPlace then ⟨min a.start b.start, max a.stop b.stop⟩ else a
  else b

/-- Splits a text after exactly `n` bytes, if a character ends there. -/
def splitAfter : Nat → List Char → Option (List Char × List Char)
  | 0, cs => some ([], cs)
  | _ + 1, [] => none
  | n + 1, c :: cs =>
    if c.utf8Size ≤ n + 1 then
      (splitAfter (n + 1 - c.utf8Size) cs).map fun (before, after) => (c :: before, after)
    else none

/-- The text that a span covers, if both of its ends fall between characters of the text. -/
def slice (s : ByteSpan) (source : String) : Option String :=
  if s.isPlace && s.start ≤ s.stop then do
    let (_, rest) ← splitAfter s.start source.toList
    let (covered, _) ← splitAfter (s.stop - s.start) rest
    return String.ofList covered
  else none

/-- The least span that covers all spans of a list. -/
def cover (spans : List ByteSpan) : ByteSpan := spans.foldl merge nowhere

theorem merge_nowhere_left (s : ByteSpan) : nowhere.merge s = s := by
  simp [merge, isPlace]

theorem merge_nowhere_right (s : ByteSpan) : s.merge nowhere = s := by
  unfold merge
  cases h : s.isPlace <;> simp [isPlace] at h ⊢
  exact h.symm

end ByteSpan

/-- The byte offsets of a span; offsets that need more than 32 bits are given up. -/
def Span.bytes (s : Span) : ByteSpan :=
  if s.start.offset < ByteSpan.wordLimit && s.stop.offset < ByteSpan.wordLimit then
    ⟨s.start.offset, s.stop.offset⟩
  else .nowhere

/-! ## Examples -/

example : ({} : Position).advance ['a', '\r', '\n', 'b'] = ⟨1, 1, 1, 4⟩ := by decide
example : ({} : Position).advance ['\n', '\r'] = ⟨2, 0, 0, 2⟩ := by decide
example : (ByteSpan.mk 3 5).merge ⟨1, 4⟩ = ⟨1, 5⟩ := by decide

end GraphQL
