/-
  What someone is told whose command line cannot be carried out.

  Asking for help or for the version is no mistake: the answer is printed, and the status is clean.
  All else is a failure, and its message ends with the synopsis.
-/
import GraphQL.Command.Arguments
import GraphQL.Command.Outcome

namespace GraphQL

/-- The version. -/
def versionText : String := "0.2.0"

/-- What a command line may look like. -/
def synopsis : String :=
  "\n".intercalate
    [ "Usage:"
    , "  [OPTIONS] check [--graphql-file-exts EXT,...] PATH..."
    , "  [OPTIONS] parse [--ast | --recognize-only] [--rule RULE] FILE"
    , "  [OPTIONS] tokenize FILE"
    , "Options, in front of the command or behind it:"
    , "  --error-format detailed|oneline"
    , "  -v, --verbose"
    , "  -h, --help" ]

namespace UsageError

/-- What is wrong; nothing is wrong with asking for help or for the version. -/
def cause? : UsageError → Option String
  | .help => none
  | .version => none
  | .nothingGiven => some "nothing to do"
  | .unknownArgument => some "unknown argument"
  | .unknownCommand => some "unknown command"
  | .missingCommand => some "a command is missing"
  | .missingArgument => some "a path is missing"
  | .invalidValue => some "invalid value of an option"
  | .unknownRule => some "unknown grammar rule"
  | .unexpectedValue => some "a value for an option that takes none"
  | .conflict => some "options that exclude each other"

/-- The answer to a command line that gives no invocation. -/
def outcome (e : UsageError) : Outcome :=
  match e.cause? with
  | some cause => .failure (cause ++ "\n" ++ synopsis)
  | none => { status := .clean, stdout := some (if e = .version then versionText else synopsis) }

end UsageError

end GraphQL
