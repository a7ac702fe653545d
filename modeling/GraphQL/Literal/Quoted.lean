/-
  The texts that string literals stand for.

  An inline string stands between single quotes.  A backslash in it begins an escape: a letter for
  a control character, or `u` and the four hexadecimal digits of a UTF-16 unit.  A character beyond
  the basic plane takes two such escapes, a high surrogate and at once a low one
  (`decodeInline`).

  A block string stands between triple quotes.  The only escape is the backslash before a triple
  quote; after it is resolved, the indentation that all lines but the first have in common is taken
  off, and so are the blank lines at both ends (`decodeBlock`).
-/
import GraphQL.Lexeme

namespace GraphQL

/-- Why a string literal stands for no text. -/
inductive QuotedError where
  /-- The quotes around it are not there. -/
  | unterminated
  /-- A backslash is followed by nothing that it may be followed by. -/
  | unknownEscape (escape : List Char)
  /-- The escape of a UTF-16 unit is broken off, or is half a character. -/
  | badUnit (escape : List Char)
deriving DecidableEq, Repr

/-- The wording of an error. -/
def QuotedError.message : QuotedError → String
  | .unterminated => "Unterminated string: missing closing quote"
  | .unknownEscape escape =>
    "Invalid escape sequence: `" ++ String.ofList escape ++ "`"
  | .badUnit escape => "Invalid unicode escape: `" ++ String.ofList escape ++ "`"

namespace Quoted

/-- What stands between two quotes that do not overlap, if the text begins and ends with them. -/
def between (quote text : List Char) : Option (List Char) :=
  let rest := text.drop quote.length
  if quote.isPrefixOf text && quote.isSuffixOf rest then
    some (rest.take (rest.length - quote.length))
  else none

/-- Between two quotes stands what is put between them. -/
theorem between_append (quote content : List Char) :
    between quote (quote ++ (content ++ quote)) = some content := by
  have opened : quote.isPrefixOf (quote ++ (content ++ quote)) = true :=
    List.isPrefixOf_iff_prefix.mpr (List.prefix_append ..)
  have closed : quote.isSuffixOf (content ++ quote) = true :=
    List.isSuffixOf_iff_suffix.mpr (List.suffix_append ..)
  rw [between]
  simp only [List.drop_left, opened, closed, Bool.and_self, if_true, List.length_append,
    Nat.add_sub_cancel, List.take_left]

/-! ## UTF-16 units in hexadecimal -/

/-- The value of a hexadecimal digit. -/
def hexValue (c : Char) : Nat :=
  if isDigit c then c.toNat - '0'.toNat
  else if 'a' ≤ c then c.toNat - 'a'.toNat + 10
  else c.toNat - 'A'.toNat + 10

/-- The value of a row of hexadecimal digits, the highest first. -/
def hexNumber (digits : List Char) : Nat := digits.foldl (fun n c => 16 * n + hexValue c) 0

/-- The digit of a value below sixteen. -/
def hexDigit (n : Nat) : Char :=
  if n < 10 then Char.ofNat ('0'.toNat + n) else Char.ofNat ('A'.toNat + (n - 10))

/-- The escape of a UTF-16 unit. -/
def unitEscape (unit : Nat) : List Char :=
  '\\' :: 'u' :: [unit / 4096, unit / 256, unit / 16, unit].map fun n => hexDigit (n % 16)

/-- Whether a unit is the first half of a character beyond the basic plane. -/
def isHighSurrogate (unit : Nat) : Bool := 0xD800 ≤ unit && unit < 0xDC00

/-- Whether a unit is the second half of a character beyond the basic plane. -/
def isLowSurrogate (unit : Nat) : Bool := 0xDC00 ≤ unit && unit < 0xE000

/-- The character of two surrogates. -/
def combine (high low : Nat) : Char := Char.ofNat (0x10000 + 0x400 * (high - 0xD800) + (low - 0xDC00))

/-- Reads `n` digits of a unit, after those already seen. -/
def readDigits (seen : List Char) : (n : Nat) → List Char →
    Except QuotedError (List Char × List Char)
  | 0, rest => .ok (seen, rest)
  | _ + 1, [] => .error (.badUnit ('\\' :: 'u' :: seen))
  | n + 1, c :: rest =>
    if isHexDigit c then readDigits (seen ++ [c]) n rest
    else .error (.badUnit ('\\' :: 'u' :: seen ++ [c]))

/-- Reads the four digits of a unit. -/
def readUnit (cs : List Char) : Except QuotedError (Nat × List Char) :=
  match readDigits [] 4 cs with
  | .ok (digits, rest) => .ok (hexNumber digits, rest)
  | .error e => .error e

/-- Reads the digits of a character, after backslash and `u`. -/
def readCharacter (cs : List Char) : Except QuotedError (Char × List Char) :=
  match readUnit cs with
  | .error e => .error e
  | .ok (unit, rest) =>
    if isHighSurrogate unit then
      match rest with
      | '\\' :: 'u' :: rest =>
        match readUnit rest with
        | .error e => .error e
        | .ok (low, rest) =>
          if isLowSurrogate low then .ok (combine unit low, rest)
          else .error (.badUnit (unitEscape low))
      | _ => .error (.badUnit (unitEscape unit))
    else if isLowSurrogate unit then .error (.badUnit (unitEscape unit))
    else .ok (Char.ofNat unit, rest)

/-! ## Inline strings -/

/-- What a letter after a backslash stands for. -/
def escaped? : Char → Option Char
  | 'n' => some '\n'
  | 'r' => some '\r'
  | 't' => some '\t'
  | 'b' => some '\x08'
  | 'f' => some '\x0c'
  | '\\' => some '\\'
  | '"' => some '"'
  | '/' => some '/'
  | _ => none

/-- Reads what stands after a backslash. -/
def readEscape : List Char → Except QuotedError (Char × List Char)
  | [] => .error (.unknownEscape ['\\'])
  | c :: rest =>
    if c = 'u' then readCharacter rest
    else
      match escaped? c with
      | some d => .ok (d, rest)
      | none => .error (.unknownEscape ['\\', c])

/-- Reading digits leaves no more than there was. -/
theorem length_le_of_readDigits {seen digits cs rest : List Char} {n : Nat}
    (h : readDigits seen n cs = .ok (digits, rest)) : rest.length ≤ cs.length := by
  induction n generalizing seen cs with
  | zero =>
    simp only [readDigits, Except.ok.injEq, Prod.mk.injEq] at h
    exact h.2 ▸ Nat.le_refl _
  | succ n ih =>
    cases cs with
    | nil => simp [readDigits] at h
    | cons c cs =>
      unfold readDigits at h
      split at h
      · have := ih h; simp only [List.length_cons]; omega
      · cases h

/-- Nor does reading a unit. -/
theorem length_le_of_readUnit {cs rest : List Char} {unit : Nat}
    (h : readUnit cs = .ok (unit, rest)) : rest.length ≤ cs.length := by
  unfold readUnit at h
  split at h
  · rename_i hd
    simp only [Except.ok.injEq, Prod.mk.injEq] at h
    exact h.2 ▸ length_le_of_readDigits hd
  · cases h

/-- Nor does reading a character, of one unit or of two, so the decoding ends. -/
theorem length_le_of_readCharacter {cs rest : List Char} {c : Char}
    (h : readCharacter cs = .ok (c, rest)) : rest.length ≤ cs.length := by
  unfold readCharacter at h
  split at h
  · -- no unit can be read
    cases h
  · rename_i hu
    have hle := length_le_of_readUnit hu
    split at h
    · -- a first half, which needs a second one behind it
      split at h
      · split at h
        · cases h
        · rename_i hl
          have := length_le_of_readUnit hl
          split at h
          · simp only [Except.ok.injEq, Prod.mk.injEq] at h
            simp only [List.length_cons] at hle
            rw [← h.2]; omega
          · cases h
      · cases h
    · -- a unit that is a character by itself, or none
      split at h
      · cases h
      · simp only [Except.ok.injEq, Prod.mk.injEq] at h
        exact h.2 ▸ hle

/-- An escape takes at least the character after the backslash. -/
theorem length_lt_of_readEscape {cs rest : List Char} {c : Char}
    (h : readEscape cs = .ok (c, rest)) : rest.length < cs.length := by
  cases cs with
  | nil => cases h
  | cons d cs =>
    simp only [readEscape] at h
    split at h
    · have := length_le_of_readCharacter h
      simp only [List.length_cons]; omega
    · split at h <;> cases h
      simp

/-- Resolves all escapes. -/
def resolveEscapes : List Char → Except QuotedError (List Char)
  | [] => .ok []
  | c :: rest =>
    if c = '\\' then
      match _h : readEscape rest with
      | .error e => .error e
      | .ok (c, rest') => (resolveEscapes rest').map (c :: ·)
    else (resolveEscapes rest).map (c :: ·)
termination_by cs => cs.length
decreasing_by
  · have := length_lt_of_readEscape _h
    simp only [List.length_cons]; omega
  · simp

/-- The text of an inline string. -/
def decodeInline (text : List Char) : Except QuotedError (List Char) :=
  match between ['"'] text with
  | none => .error .unterminated
  | some content => resolveEscapes content

/-! ## Block strings -/

/-- The quote of a block string. -/
def tripleQuote : List Char := ['"', '"', '"']

/-- Resolves the one escape of block strings. -/
def resolveQuotes : List Char → List Char
  | '\\' :: '"' :: '"' :: '"' :: rest => '"' :: '"' :: '"' :: resolveQuotes rest
  | c :: rest => c :: resolveQuotes rest
  | [] => []

/-- The lines of a text; CR LF, CR and LF each end one, and the last line has no end. -/
def textLines : List Char → List (List Char)
  | [] => [[]]
  | '\r' :: '\n' :: rest => [] :: textLines rest
  | '\r' :: rest => [] :: textLines rest
  | '\n' :: rest => [] :: textLines rest
  | c :: rest =>
    match textLines rest with
    | [] => [[c]]
    | line :: others => (c :: line) :: others

/-- The characters that indent a line. -/
def isIndent (c : Char) : Bool := c == ' ' || c == '\t'

/-- How far a line is indented. -/
def indentation (line : List Char) : Nat := (line.takeWhile isIndent).length

/-- Whether a line is all indentation. -/
def isBlankLine (line : List Char) : Bool := line.all isIndent

/-- The least indentation of the lines that are not blank; zero if there are none. -/
def commonIndentation (lines : List (List Char)) : Nat :=
  ((lines.filter fun line => !isBlankLine line).map indentation).min?.getD 0

/-- Takes the common indentation off all lines but the first. -/
def unindent : List (List Char) → List (List Char)
  | [] => []
  | first :: rest => first :: rest.map (List.drop (commonIndentation rest))

/-- Takes the blank lines off both ends. -/
def trimBlankLines (lines : List (List Char)) : List (List Char) :=
  ((lines.dropWhile isBlankLine).reverse.dropWhile isBlankLine).reverse

/-- The text of a block string. -/
def decodeBlock (text : List Char) : Except QuotedError (List Char) :=
  match between tripleQuote text with
  | none => .error .unterminated
  | some content =>
    .ok <| ['\n'].intercalate (trimBlankLines (unindent (textLines (resolveQuotes content))))

/-- The text of a string literal. -/
def decode (block : Bool) (literal : String) : Except QuotedError String :=
  (if block then decodeBlock literal.toList else decodeInline literal.toList).map String.ofList

end Quoted

/-! ## Examples -/

example : Quoted.unitEscape 0xE9 = ['\\', 'u', '0', '0', 'E', '9'] := by decide
example : Quoted.textLines ['a', '\r', '\r', '\n'] = [['a'], [], []] := by decide
example : Quoted.unindent [[' '], [' ', ' ', 'a'], [' '], [' ', 'b']] =
    [[' '], [' ', 'a'], [], ['b']] := by decide

end GraphQL
