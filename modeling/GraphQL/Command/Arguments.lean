/-
  The command line.

  A command line names a tool and gives it options and paths; two options may stand before the name
  of the tool as well as behind it.  `Invocation.ofArguments` reads the words from the left and
  gives what is to be done, or the one `UsageError` for which nothing is done.

  Reading has one rule that decides between several mistakes: a word is only filed when the next one
  shows that it is complete.  So the value of an option is checked when the word behind it is
  looked at, an unknown word is reported before the value in front of it is checked, and whatever is
  wrong behind the name of a tool is reported before a value in front of that name.
-/
import GraphQL.Diagnostic

namespace GraphQL

/-! ## What a command line asks for -/

/-- What is done with the tree of a file. -/
inductive TreeOutput where
  /-- It is printed. -/
  | tree
  /-- The document that it stands for is printed as JSON. -/
  | json
  /-- It is not made. -/
  | nothing
deriving DecidableEq, Repr

/-- What is to be done. -/
inductive Command where
  /-- Reads all files under some paths whose extension is listed. -/
  | check (extensions : List String) (paths : List String)
  /-- Reads one file as a rule. -/
  | parse (output : TreeOutput) (rule : Rule) (path : String)
  /-- Lists the tokens of one file. -/
  | tokenize (path : String)
deriving DecidableEq, Repr

/-- What is to be done, and how it is reported. -/
structure Invocation where
  command : Command
  errorFormat : ErrorFormat
  /-- How often more logging was asked for. -/
  verbosity : Nat
deriving DecidableEq, Repr

/-- Why nothing is done. -/
inductive UsageError where
  /-- Help was asked for. -/
  | help
  /-- The version was asked for. -/
  | version
  /-- Nothing was asked for. -/
  | nothingGiven
  | unknownArgument
  | unknownCommand
  | missingCommand
  /-- A path is missing. -/
  | missingArgument
  /-- A value is missing, empty where it must not be, or none of those that are possible. -/
  | invalidValue
  /-- A value names no rule. -/
  | unknownRule
  /-- An option that takes no value has one. -/
  | unexpectedValue
  /-- An option is repeated, or excluded by another. -/
  | conflict
deriving DecidableEq, Repr

/-! ## Tools and their options -/

/-- The tools. -/
inductive Tool where
  | check | parse | tokenize
deriving DecidableEq, Repr

/-- The word for a tool. -/
def Tool.name : Tool → String
  | .check => "check"
  | .parse => "parse"
  | .tokenize => "tokenize"

/-- The tool of a word. -/
def Tool.ofName? (name : String) : Option Tool :=
  [Tool.check, .parse, .tokenize].find? fun tool => tool.name == name

/-- The word that asks for help on a tool. -/
def helpWord : String := "help"

/-- The options. -/
inductive Flag where
  | errorFormat | verbose | help | version | extensions | ast | recognizeOnly | rule
deriving DecidableEq, Repr

namespace Flag

/-- The long name, which follows two dashes. -/
def long : Flag → String
  | .errorFormat => "error-format"
  | .verbose => "verbose"
  | .help => "help"
  | .version => "version"
  | .extensions => "graphql-file-exts"
  | .ast => "ast"
  | .recognizeOnly => "recognize-only"
  | .rule => "rule"

/-- The letter, which follows one dash; such options take no value. -/
def letter? : Flag → Option Char
  | .verbose => some 'v'
  | .help => some 'h'
  | .version => some 'V'
  | _ => none

/-- Whether a value belongs to the option. -/
def takesValue : Flag → Bool
  | .errorFormat => true
  | .extensions => true
  | .rule => true
  | _ => false

end Flag

/-- Where a word stands: in front of the name of the tool, or behind it. -/
inductive Scope where
  | top
  | within (tool : Tool)
deriving DecidableEq, Repr

namespace Scope

/-- The options that may stand there. -/
def flags : Scope → List Flag
  | .top => [.errorFormat, .verbose, .help, .version]
  | .within .check => [.errorFormat, .verbose, .help, .extensions]
  | .within .parse => [.errorFormat, .verbose, .help, .ast, .recognizeOnly, .rule]
  | .within .tokenize => [.errorFormat, .verbose, .help]

/-- The option of a long name. -/
def ofLong? (scope : Scope) (name : String) : Option Flag :=
  scope.flags.find? fun f => f.long == name

/-- The option of a letter. -/
def ofLetter? (scope : Scope) (letter : Char) : Option Flag :=
  scope.flags.find? fun f => f.letter? == some letter

end Scope

/-! ## What has been read -/

/-- The options and paths that have been filed. -/
structure Given where
  errorFormat : Option ErrorFormat := none
  verbosity : Nat := 0
  extensions : Option (List String) := none
  ast : Bool := false
  recognizeOnly : Bool := false
  rule : Option Rule := none
  paths : List String := []

namespace Given

/-- The greatest verbosity that is told apart. -/
def maxVerbosity : Nat := 255

/-- Files an option that takes no value. -/
def raise (g : Given) : Flag → Except UsageError Given
  | .help => .error .help
  | .version => .error .version
  | .verbose => .ok { g with verbosity := min (g.verbosity + 1) maxVerbosity }
  | .ast => if g.ast then .error .conflict else .ok { g with ast := true }
  | .recognizeOnly =>
    if g.recognizeOnly then .error .conflict else .ok { g with recognizeOnly := true }
  | _ => .ok g

/-- Files an option with its value.  Only the extensions may be given more than once. -/
def set (g : Given) (f : Flag) (value : String) : Except UsageError Given :=
  match f with
  | .errorFormat =>
    if g.errorFormat.isSome then .error .conflict
    else if value = "detailed" then .ok { g with errorFormat := some .detailed }
    else if value = "oneline" then .ok { g with errorFormat := some .oneLine }
    else .error .invalidValue
  | .rule =>
    if g.rule.isSome then .error .conflict
    else
      match Rule.ofName? value with
      | some r => .ok { g with rule := some r }
      | none => .error .unknownRule
  | .extensions =>
    .ok { g with extensions := some (g.extensions.getD [] ++ value.splitOn ",") }
  | _ => .ok g

end Given

/-- What the last words left open. -/
inductive Pending where
  | nothing
  /-- An option that takes a value, with the value if it has come. -/
  | value (f : Flag) (text : Option String)
  /-- Paths. -/
  | paths (texts : List String)
deriving DecidableEq, Repr

/-- How far the words of one scope have been read. -/
structure Progress where
  given : Given := {}
  pending : Pending := .nothing
  /-- Whether two dashes have been read, behind which every word is a path. -/
  literal : Bool := false

namespace Progress

/-- Files what is open. -/
def settle (p : Progress) : Except UsageError Progress :=
  match p.pending with
  | .nothing => .ok p
  | .value _ none => .error .invalidValue
  | .value f (some text) => do
    let given ← p.given.set f text
    return { p with given, pending := .nothing }
  | .paths texts =>
    if texts.any String.isEmpty then .error .invalidValue
    else
      .ok { p with given := { p.given with paths := p.given.paths ++ texts }, pending := .nothing }

/-- The option that waits for its value. -/
def waiting? (p : Progress) : Option Flag :=
  match p.pending with
  | .value f none => some f
  | _ => none

/-- Reads an option without a value. -/
def readPlain (p : Progress) (f : Flag) : Except UsageError Progress := do
  let p ← p.settle
  let given ← p.given.raise f
  return { p with given }

/-- Reads an option by its long name, with the value behind an equals sign if there is one. -/
def readLong (scope : Scope) (p : Progress) (name : String) (value : Option String) :
    Except UsageError Progress :=
  match scope.ofLong? name with
  | none => .error .unknownArgument
  | some f =>
    match f.takesValue, value with
    | true, some text => do
      let p ← p.settle
      let given ← p.given.set f text
      return { p with given }
    | true, none => do
      let p ← p.settle
      return { p with pending := .value f none }
    | false, some _ => .error .unexpectedValue
    | false, none => p.readPlain f

/-- Reads options by their letters. -/
def readLetters (scope : Scope) (p : Progress) : List Char → Except UsageError Progress
  | [] => .ok p
  | letter :: rest =>
    match scope.ofLetter? letter with
    | none => .error .unknownArgument
    | some f => do
      let p ← p.readPlain f
      p.readLetters scope rest

/-- Reads a word that is no option.  In front of the name of a tool there is no place for one; a
    tool that takes one path has no place for a second. -/
def readPath (scope : Scope) (p : Progress) (text : String) : Except UsageError Progress :=
  match scope with
  | .top =>
    if p.literal && (text == helpWord || (Tool.ofName? text).isSome) then .error .unknownArgument
    else .error .unknownCommand
  | .within .check =>
    match p.pending with
    | .paths texts => .ok { p with pending := .paths (texts ++ [text]) }
    | _ => do
      let p ← p.settle
      return { p with pending := .paths [text] }
  | .within _ =>
    match p.pending with
    | .paths _ => .error .unknownArgument
    | _ =>
      if p.given.paths.isEmpty then do
        let p ← p.settle
        return { p with pending := .paths [text] }
      else .error .unknownArgument

/-- A long name and the value behind its equals sign. -/
def splitValue (cs : List Char) : String × Option String :=
  match cs.span (· != '=') with
  | (name, _ :: value) => (String.ofList name, some (String.ofList value))
  | (name, []) => (String.ofList name, none)

/-- Reads one word. -/
def readWord (scope : Scope) (p : Progress) (word : String) : Except UsageError Progress :=
  if p.literal then p.readPath scope word
  else
    match word.toList with
    | ['-', '-'] => .ok { p with literal := true }
    | '-' :: '-' :: rest =>
      let (name, value) := splitValue rest
      p.readLong scope name value
    | '-' :: letter :: rest => p.readLetters scope (letter :: rest)
    | _ =>
      match p.waiting? with
      | some f => .ok { p with pending := .value f (some word) }
      | none => p.readPath scope word

/-- Reads the words behind the name of a tool. -/
def readAll (tool : Tool) (p : Progress) : List String → Except UsageError Given
  | [] => do
    let p ← p.settle
    return p.given
  | word :: rest => do
    let p ← p.readWord (.within tool) word
    p.readAll tool rest

end Progress

/-! ## From words to an invocation -/

/-- The extensions of files that are read if none are given. -/
def defaultExtensions : List String := ["graphql", "graphqls", "gql"]

/-- What a tool is to do with what was given to it. -/
def Tool.command (tool : Tool) (g : Given) : Except UsageError Command :=
  if g.ast && g.recognizeOnly then .error .conflict
  else
    match tool, g.paths with
    | _, [] => .error .missingArgument
    | .check, paths => .ok (.check (g.extensions.getD defaultExtensions) paths)
    | .parse, path :: _ =>
      let output := if g.recognizeOnly then .nothing else if g.ast then .json else .tree
      .ok (.parse output (g.rule.getD .document) path)
    | .tokenize, path :: _ => .ok (.tokenize path)

/-- The answer to a request for help; behind it may stand the name of one tool. -/
def helpOn : List String → UsageError
  | [] => .help
  | [name] => if name = helpWord ∨ (Tool.ofName? name).isSome then .help else .unknownCommand
  | _ => .unknownCommand

/-- The invocation of a tool: an option that is given behind its name counts, and else one that is
    given in front of it. -/
def Invocation.ofGiven (front : Given) (command : Command) (behind : Given) : Invocation :=
  { command
    errorFormat := (behind.errorFormat.orElse fun _ => front.errorFormat).getD .detailed
    verbosity := if behind.verbosity = 0 then front.verbosity else behind.verbosity }

/-- Reads the words up to the name of a tool, and then on. -/
def Progress.readTop (p : Progress) : List String → Except UsageError Invocation
  | [] => do
    let p ← p.settle
    if p.given.errorFormat.isNone && p.given.verbosity = 0 then .error .nothingGiven
    else .error .missingCommand
  | word :: rest =>
    if p.literal || p.waiting?.isSome then do
      let p ← p.readWord .top word
      p.readTop rest
    else if word = helpWord then .error (helpOn rest)
    else
      match Tool.ofName? word with
      | some tool => do
        let behind ← ({} : Progress).readAll tool rest
        let command ← tool.command behind
        let p ← p.settle
        return .ofGiven p.given command behind
      | none => do
        let p ← p.readWord .top word
        p.readTop rest

/-- What the words of a command line, without that of the program, ask for. -/
def Invocation.ofArguments (words : List String) : Except UsageError Invocation :=
  ({} : Progress).readTop words

end GraphQL
