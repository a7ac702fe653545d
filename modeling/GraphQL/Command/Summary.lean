/-
  What a check of many files comes to.

  A `Summary` counts files and mistakes and lists what could not be read.  Its status is the worst
  that is true of it: a file that could not be read weighs more than a mistake.  Its text has a
  paragraph for either of the two, and one of success if there is neither.
-/
import GraphQL.Command.Outcome

namespace GraphQL

/-- What was counted. -/
structure Summary where
  /-- The files that were to be checked. -/
  files : Nat := 0
  /-- The files that were passed over. -/
  skipped : Nat := 0
  /-- The files with mistakes in them. -/
  faultyFiles : Nat := 0
  /-- The mistakes in all files. -/
  errors : Nat := 0
  /-- What could not be read or reported on, and why. -/
  unread : List String := []
deriving DecidableEq, Repr

namespace Summary

/-- The status of the check. -/
def status (s : Summary) : Status :=
  if !s.unread.isEmpty then .failure else if 0 < s.errors then .diagnostics else .clean

/-- Items, each on a line of its own. -/
def bullets (items : List String) : String := String.join (items.map ("\n  * " ++ ·))

/-- The paragraph on mistakes. -/
def errorLines (s : Summary) : List String :=
  if 0 < s.errors then
    [Outcome.badMark ++
      s!"Found {s.errors} GraphQL syntax errors in {s.faultyFiles} of {s.files} files."]
  else []

/-- The paragraph on what could not be read. -/
def unreadLines (s : Summary) : List String :=
  if s.unread.isEmpty then []
  else [Outcome.badMark ++ "Errors reading input files:" ++ bullets s.unread]

/-- The paragraph of success. -/
def successLine (s : Summary) : String :=
  Outcome.goodMark ++ "All GraphQL parsed successfully:" ++
    bullets [s!"Checked {s.files} files.", s!"Skipped {s.skipped} non-graphql files."]

/-- The text of a summary. -/
def text (s : Summary) : String :=
  match s.errorLines ++ s.unreadLines with
  | [] => s.successLine
  | lines => "\n".intercalate lines

end Summary

end GraphQL
