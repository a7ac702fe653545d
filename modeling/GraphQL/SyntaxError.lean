/-
  What can be wrong with a row of tokens, and how it is reported.

  A `Fault` is a cause: a missing token, a choice or a repetition that no token opens, tokens after
  the end, or too deep a nesting.  Each names the text that was found instead, which is empty at
  the end of the input.  `Fault.message` words it in full, `Fault.summary` in short.

  A `SyntaxError` is a fault in its place: the span of the token that was found, and the rules that
  were being read, outermost first.
-/
import GraphQL.Grammar.Opening
import GraphQL.Source

namespace GraphQL

/-- The names of the demands of a path, between brackets. -/
def Path.text (separator : String) (p : Path) : String :=
  "[" ++ separator.intercalate (p.map TokenKind.label) ++ "]"

/-- Why tokens do not fit a grammar. -/
inductive Fault where
  /-- Another token was asked for. -/
  | mismatch (expected : TokenKind) (found : String)
  /-- No alternative of a choice is opened; these paths would open one. -/
  | noAlternative (paths : List Path) (found : String)
  /-- A repetition that must not be empty is not opened; these paths would open it. -/
  | noIteration (paths : List Path) (found : String)
  /-- The document ends before the tokens do. -/
  | redundantInput (found : String)
  /-- The rule that is entered would be nested deeper than the limit. -/
  | tooDeep (limit : Nat) (entering : Rule) (found : String)
deriving DecidableEq, Repr

namespace Fault

/-- The text of the offending token. -/
def found : Fault → String
  | .mismatch _ found => found
  | .noAlternative _ found => found
  | .noIteration _ found => found
  | .redundantInput found => found
  | .tooDeep _ _ found => found

/-- What would have been accepted. -/
def expected : Fault → String
  | .mismatch expected _ => expected.label
  | .noAlternative paths _ => " | ".intercalate (paths.map (Path.text ", "))
  | .noIteration paths _ => " | ".intercalate (paths.map (Path.text ", "))
  | .redundantInput _ => TokenKind.endOfInput.label
  | .tooDeep limit _ _ => s!"at most {limit} nested rules"

/-- The fault in short. -/
def summary : Fault → String
  | .mismatch expected found => s!"expected `{expected}`, found `{found}`"
  | .noAlternative _ found => s!"no viable alternative at `{found}`"
  | .noIteration _ found => s!"expected at least one iteration at `{found}`"
  | .redundantInput found => s!"redundant input at `{found}`"
  | .tooDeep limit _ _ => s!"rule nesting deeper than {limit}"

/-- Paths as a numbered list, one to a line. -/
def numbered (paths : List Path) : String :=
  "\n".intercalate <|
    paths.mapIdx fun i p => "  " ++ toString (i + 1) ++ ". " ++ p.text ", "

/-- The fault in full. -/
def message : Fault → String
  | .mismatch expected found =>
    s!"Expecting token of type --> {expected} <-- but found --> '{found}' <--"
  | .noAlternative paths found =>
    "Expecting: one of these possible Token sequences:\n" ++ numbered paths
      ++ s!"\nbut found: '{found}'"
  | .noIteration paths found =>
    "Expecting: at least one iteration which starts with one of these possible Token "
      ++ "sequences::\n  <" ++ " ,".intercalate (paths.map (Path.text ",")) ++ ">"
      ++ s!"\nbut found: '{found}'"
  | .redundantInput found => s!"Redundant input, expecting EOF but found: {found}"
  | .tooDeep limit entering _ =>
    s!"Maximum rule nesting depth of {limit} exceeded while entering rule `{entering}`"

end Fault

/-- A fault in its place. -/
structure SyntaxError where
  fault : Fault
  span : Span
  /-- The rules that were being read, outermost first. -/
  stack : List Rule
deriving DecidableEq, Repr

end GraphQL
