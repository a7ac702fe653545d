/-
  What each command does.

  `Command.run` is the outcome of a command on a disk.  Listing the tokens of a file and printing its
  tree go as far as they can: what is printed does not hang on whether there are mistakes, and the
  report of mistakes stands beside it.  But a report that cannot be laid out breaks the run off: it
  has no outcome then, and nothing is printed.
-/
import GraphQL.Command.Arguments
import GraphQL.Command.Check
import GraphQL.Document.Json
import GraphQL.Grammar.Standard

namespace GraphQL

/-! ## Tokens -/

/-- The line for a token. -/
def Token.listing (t : Token) : String :=
  s!"{t.kind.label} '{t.text}' @{t.span.start.line + 1}:{t.span.start.column + 1}"

/-- Lists the tokens of a text. -/
def Outcome.ofTokens (format : ErrorFormat) (path source : String) : Layout Outcome := do
  let scan := Scan.ofSource source (some path)
  return .report (some ("\n".intercalate (scan.tokens.map Token.listing)))
    (← GraphQL.report format scan.errors [] (some source))

/-! ## Trees -/

/-- The JSON of what a tree stands for. -/
def Node.documentJson (tree : Node) : Build Json :=
  if tree.rule = .document then (Document.ofTree tree).map Document.toJson
  else (Construct.ofNode tree).map (Json.ofOption Construct.toJson)

/-- What is printed of a tree. -/
def TreeOutput.print (output : TreeOutput) (tree : Node) : Build String :=
  match output with
  | .json => tree.documentJson.map Json.indented
  | _ => .ok tree.render

/-- How far a text is read for an output. -/
def TreeOutput.mode : TreeOutput → Mode
  | .nothing => .recognize
  | _ => .tree

/-- Prints the tree of a text.  The report is laid out before anything else is made. -/
def Outcome.ofSource (g : Grammar) (output : TreeOutput) (rule : Rule) (format : ErrorFormat)
    (path source : String) : Layout Outcome := do
  let reading := g.readSource source (some path) rule output.mode
  let report ← reading.report (some source) format
  match reading.tree.mapM output.print with
  | .ok printed => return .report printed report
  | .error error => return .failure error.message

/-! ## Commands -/

/-- Does something with the text of a file. -/
def Outcome.withText (disk : Disk) (path : String) (f : String → Layout Outcome) : Layout Outcome :=
  match (disk path).text with
  | .ok source => f source
  | .error error => return .failure (unreadableText path error)

/-- The outcome of a command for a grammar, if it does not break off. -/
def Command.runWith (g : Grammar) (disk : Disk) (format : ErrorFormat) (tasks : Nat → Nat) :
    Command → Layout Outcome
  | .check extensions paths =>
    return (checkAll g format tasks (.ofPaths disk extensions paths)).outcome
  | .parse output rule path => Outcome.withText disk path (Outcome.ofSource g output rule format path)
  | .tokenize path => Outcome.withText disk path (Outcome.ofTokens format path)

/-- The outcome of a command. -/
def Command.run (disk : Disk) (format : ErrorFormat) (tasks : Nat → Nat) (command : Command) :
    Layout Outcome :=
  match Standard.grammar? with
  | .ok g => command.runWith g disk format tasks
  | .error error => return .failure error.message

/-- The outcome of an invocation; unless the system says otherwise its tasks are counted from
    one. -/
def Invocation.run (disk : Disk) (i : Invocation) (tasks : Nat → Nat := (· + 1)) : Layout Outcome :=
  i.command.run disk i.errorFormat tasks

end GraphQL
