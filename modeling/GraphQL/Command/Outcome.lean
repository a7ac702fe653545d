/-
  How a run of a tool ends.

  An `Outcome` is a status with what is printed to the two streams.  A run ends well, or with
  mistakes in what it read (`Outcome.report`, which infers the status from whether there is anything
  to report), or it could not do what it was asked to (`Outcome.failure`).  Statuses are ordered from
  the best to the worst, and each has its own exit code.
-/

namespace GraphQL

/-! ## Statuses -/

/-- How a run ends. -/
inductive Status where
  /-- Everything was read and is in order. -/
  | clean
  /-- There are mistakes in what was read. -/
  | diagnostics
  /-- Something could not be read. -/
  | failure
deriving DecidableEq, Repr

/-- The exit code. -/
def Status.code : Status → Nat
  | .clean => 0
  | .diagnostics => 1
  | .failure => 2

/-! ## Outcomes -/

/-- The status, and what is printed; a stream to which nothing is printed is absent. -/
structure Outcome where
  status : Status
  stdout : Option String := none
  stderr : Option String := none
deriving DecidableEq, Repr

namespace Outcome

/-- The mark of what is in order. -/
def goodMark : String := "✅ "

/-- The mark of what is not. -/
def badMark : String := "❌ "

/-- The run could not do what it was asked to. -/
def failure (message : String) : Outcome :=
  { status := .failure, stderr := some (badMark ++ message) }

/-- Something was printed, and there may be a report of mistakes. -/
def report (printed : Option String) (report : String) : Outcome :=
  if report.isEmpty then { status := .clean, stdout := printed }
  else { status := .diagnostics, stdout := printed, stderr := some report }

end Outcome

end GraphQL
