/-
  The floating-point numbers that literals stand for.

  A written decimal number is a sign, digits with at most one point among them, and a power of ten;
  at least one digit must be there.  It stands for the 64-bit binary floating-point number nearest
  to its exact value, and of two that are equally near for the one whose last bit is zero.  The
  words for infinity and for what is no number are read as well, in any case.

  Nothing is rounded twice.  The exact value is a quotient of two natural numbers, and one division
  rounds it to a whole multiple `m` of the unit `2 ^ q` of its binade (`Binary64.ofQuotient`).  The
  bits of the result are then `(q + 1074) * 2 ^ 52 + m`, for small numbers below the first full
  binade as well, and also when rounding has carried `m` into the next binade.
-/
import GraphQL.Literal.Integer

namespace GraphQL

/-! ## Rounding -/

/-- The whole number nearest to `n / d`; a half goes to the even one. -/
def roundHalfEven (n d : Nat) : Nat :=
  let m := n / d
  let twice := 2 * (n % d)
  if twice < d then m
  else if d < twice then m + 1
  else if m % 2 = 0 then m else m + 1

/-! ## The binary format -/

namespace Binary64

/-- The bits of infinity. -/
def infinity : Nat := 2047 * Nat.pow 2 52

/-- The bits of what is no number. -/
def notANumber : Nat := infinity + Nat.pow 2 51

/-- The greatest `e` with `2 ^ e ≤ n / d`, of a positive quotient. -/
def floorLog (n d : Nat) : Int :=
  let e : Int := (Nat.log2 n : Int) - Nat.log2 d
  if d * Nat.pow 2 e.toNat ≤ n * Nat.pow 2 (-e).toNat then e else e - 1

/-- The bits of the number nearest to a positive quotient. -/
def ofQuotient (n d : Nat) : Nat :=
  let q := max (floorLog n d - 52) (-1074)
  let m := roundHalfEven (n * Nat.pow 2 (-q).toNat) (d * Nat.pow 2 q.toNat)
  min ((q + 1074).toNat * Nat.pow 2 52 + m) infinity

/-- The bits of a number with a sign. -/
def withSign (negative : Bool) (bits : Nat) : Nat := if negative then Nat.pow 2 63 + bits else bits

end Binary64

/-! ## Decimal numbers -/

/-- The number `digits * 10 ^ exponent`. -/
structure Decimal where
  digits : Nat
  exponent : Int
deriving DecidableEq, Repr

namespace Decimal

/-- How many decimal digits a number has; none if it is zero. -/
def width (n : Nat) : Nat := if n = 0 then 0 else (Nat.toDigits 10 n).length

/-- The bits of the nearest binary number.  A number with more than 309 digits before its point is
    infinite, and one with 324 zeros behind its point is zero, so that the powers of ten that are
    computed have a bounded size. -/
def bits (d : Decimal) : Nat :=
  let point := d.exponent + width d.digits
  if d.digits = 0 ∨ point ≤ -324 then 0
  else if 310 ≤ point then Binary64.infinity
  else Binary64.ofQuotient (d.digits * Nat.pow 10 d.exponent.toNat) (Nat.pow 10 (-d.exponent).toNat)

end Decimal

/-! ## Reading -/

/-- Why a text stands for no floating-point number. -/
inductive DecimalError where
  | empty
  | invalid
deriving DecidableEq, Repr

/-- The wording of an error. -/
def DecimalError.message : DecimalError → String
  | .empty => "cannot parse float from empty string"
  | .invalid => "invalid float literal"

namespace Decimal

/-- The value of a row of digits, the highest first. -/
def naturalOf (digits : List Char) : Nat :=
  digits.foldl (fun n c => 10 * n + Integer.digitValue c) 0

/-- The digits behind a point, and the rest. -/
def readFraction : List Char → List Char × List Char
  | '.' :: rest => rest.span isDigit
  | cs => ([], cs)

/-- The value of some digits, of which there must be one, up to the end. -/
def readPower (negative : Bool) (cs : List Char) : Option Int :=
  if cs.isEmpty || !cs.all isDigit then none
  else some (if negative then -(naturalOf cs : Int) else naturalOf cs)

/-- The power of ten at the end of a number. -/
def readExponent : List Char → Option Int
  | [] => some 0
  | e :: rest =>
    if e = 'e' ∨ e = 'E' then
      match rest with
      | '-' :: digits => readPower true digits
      | '+' :: digits => readPower false digits
      | digits => readPower false digits
    else none

/-- A number without its sign. -/
def read? (cs : List Char) : Option Decimal :=
  let (whole, rest) := cs.span isDigit
  let (fraction, rest) := readFraction rest
  if whole.isEmpty && fraction.isEmpty then none
  else
    (readExponent rest).map fun exponent =>
      { digits := naturalOf (whole ++ fraction), exponent := exponent - fraction.length }

/-- The bits of a word for infinity or for what is no number. -/
def ofWord? (cs : List Char) : Option Nat :=
  let word := String.ofList (cs.map Char.toLower)
  if word = "inf" ∨ word = "infinity" then some Binary64.infinity
  else if word = "nan" then some Binary64.notANumber
  else none

/-- The bits of a number or a word without its sign. -/
def readMagnitude (negative : Bool) (cs : List Char) : Except DecimalError Nat :=
  match read? cs with
  | some d => .ok (Binary64.withSign negative d.bits)
  | none =>
    match ofWord? cs with
    | some bits => .ok (Binary64.withSign negative bits)
    | none => .error .invalid

/-- The bits of the number that a text stands for. -/
def ofChars : List Char → Except DecimalError Nat
  | [] => .error .empty
  | '-' :: rest => readMagnitude true rest
  | '+' :: rest => readMagnitude false rest
  | cs => readMagnitude false cs

/-- The bits of the number that a literal stands for. -/
def decode (literal : String) : Except DecimalError Nat := ofChars literal.toList

end Decimal

/-! ## Examples -/

example : roundHalfEven 5 2 = 2 ∧ roundHalfEven 7 2 = 4 ∧ roundHalfEven 8 3 = 3 := by decide
example : Binary64.ofQuotient 1 1 = 0x3FF0000000000000 := by decide +kernel
example : Binary64.ofQuotient 1 10 = 0x3FB999999999999A := by decide +kernel
example : Decimal.bits ⟨5, -324⟩ = 1 := by decide +kernel
example : Decimal.bits ⟨17976931348623159, 292⟩ = Binary64.infinity := by decide +kernel

end GraphQL
