/-
  The integers that literals stand for.

  A written integer is a sign, which may be left out, and decimal digits.  It stands for an integer
  of 64 bits in two's complement.  It is read from the left, and the first character that is no
  digit, or that makes the number leave the range, decides which error it is.
-/
import GraphQL.Lexeme

namespace GraphQL

/-- Why a text stands for no integer of 64 bits. -/
inductive IntegerError where
  | empty
  | notADigit
  | tooLarge
  | tooSmall
deriving DecidableEq, Repr

/-- The wording of an error. -/
def IntegerError.message : IntegerError → String
  | .empty => "cannot parse integer from empty string"
  | .notADigit => "invalid digit found in string"
  | .tooLarge => "number too large to fit in target type"
  | .tooSmall => "number too small to fit in target type"

namespace Integer

/-- The least integer of 64 bits. -/
def least : Int := -9223372036854775808

/-- The greatest integer of 64 bits. -/
def greatest : Int := 9223372036854775807

/-- The value of a decimal digit. -/
def digitValue (c : Char) : Nat := c.toNat - '0'.toNat

/-- A number with one more digit; the digits of a negative number count downwards. -/
def append (negative : Bool) (n : Int) (c : Char) : Int :=
  if negative then n * 10 - digitValue c else n * 10 + digitValue c

/-- Reads digits after those of `n`. -/
def readDigits (negative : Bool) (n : Int) : List Char → Except IntegerError Int
  | [] => .ok n
  | c :: rest =>
    let m := append negative n c
    if !isDigit c then .error .notADigit
    else if greatest < m then .error .tooLarge
    else if m < least then .error .tooSmall
    else readDigits negative m rest

/-- Reads the digits after a sign; there must be one. -/
def readSome (negative : Bool) : List Char → Except IntegerError Int
  | [] => .error .notADigit
  | cs => readDigits negative 0 cs

/-- The integer that a text stands for. -/
def ofChars : List Char → Except IntegerError Int
  | [] => .error .empty
  | '-' :: rest => readSome true rest
  | '+' :: rest => readSome false rest
  | cs => readSome false cs

/-- The integer that a literal stands for. -/
def decode (literal : String) : Except IntegerError Int := ofChars literal.toList

end Integer

/-! ## Examples -/

example : Integer.ofChars ['-', '0', '0', '7'] = .ok (-7) := rfl
example : Integer.ofChars ['+'] = .error .notADigit := rfl

end GraphQL
