/-
  How much is logged.

  The level is told on the command line, by asking for more logging once or more often, or else by a
  text from the environment.  Such a text is a number from 1 to 5 or the name of a level; a text that
  is neither leaves the level as it is by default, and is handed back so that it can be complained
  about.
-/
import GraphQL.Source

namespace GraphQL

/-! ## Levels -/

/-- The levels, from the one at which the least is logged. -/
inductive LogLevel where
  | error | warn | info | debug | trace
deriving DecidableEq, Repr

namespace LogLevel

/-- All levels. -/
def all : List LogLevel := [.error, .warn, .info, .debug, .trace]

/-- The name of a level. -/
def name : LogLevel → String
  | .error => "ERROR"
  | .warn => "WARN"
  | .info => "INFO"
  | .debug => "DEBUG"
  | .trace => "TRACE"

/-- The level if nothing is told. -/
def default : LogLevel := .info

/-! ## Reading a level -/

/-- The characters that may stand around a text without changing it: the white space of Unicode. -/
def isBlank (c : Char) : Bool :=
  let n := c.toNat
  (9 ≤ n && n ≤ 13) || n = 0x20 || n = 0x85 || n = 0xA0 || n = 0x1680
    || (0x2000 ≤ n && n ≤ 0x200A) || n = 0x2028 || n = 0x2029 || n = 0x202F || n = 0x205F
    || n = 0x3000

/-- A text without the blanks around it. -/
def trim (text : List Char) : List Char :=
  ((text.dropWhile isBlank).reverse.dropWhile isBlank).reverse

/-- The value of a row of digits; a plus sign may stand in front. -/
def number? (text : List Char) : Option Nat :=
  let digits := match text with
    | '+' :: rest => rest
    | _ => text
  if digits.isEmpty || !digits.all Char.isDigit then none
  else some (digits.foldl (fun n c => 10 * n + (c.toNat - 48)) 0)

/-- The level that a text names, in whatever case, or whose number it gives. -/
def ofText? (text : List Char) : Option LogLevel :=
  match number? text with
  | some 0 => none
  | some (n + 1) => all[n]?
  | none => all.find? fun level => level.name.toList == text.map Char.toUpper

end LogLevel

/-! ## Choosing a level -/

/-- The level that was chosen, with the text from the environment if it names none. -/
structure LogChoice where
  level : LogLevel
  invalid : Option String := none
deriving DecidableEq, Repr

/-- Chooses a level: whoever asks for more logging overrules the environment. -/
def LogChoice.of (verbosity : Nat) (environment : Option String) : LogChoice :=
  match verbosity, environment with
  | 0, none => { level := .default }
  | 0, some text =>
    let text := LogLevel.trim text.toList
    match LogLevel.ofText? text with
    | some level => { level }
    | none => { level := .default, invalid := some (String.ofList text) }
  | 1, _ => { level := .debug }
  | _, _ => { level := .trace }

/-! ## Examples -/

example : LogChoice.of 0 (some " +05\n") = { level := .trace } := by cbv
example : LogChoice.of 0 (some "Warn") = { level := .warn } := by cbv
example : LogChoice.of 0 (some " 6") = { level := .info, invalid := some "6" } := by cbv

end GraphQL
