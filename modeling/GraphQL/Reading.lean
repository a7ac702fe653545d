/-
  Reading texts.

  `Grammar.readSource` goes all the way from a text to a tree: it takes the text apart into tokens
  and reads them as one rule.  What it gives, a `Reading`, holds the mistakes of both steps; mistakes
  never keep it from giving a tree.  `Reading.document` makes a document of the tree.
-/
import GraphQL.Diagnostic
import GraphQL.Document.OfTree.Definition
import GraphQL.Parsing

namespace GraphQL

/-- What reading a text gives. -/
structure Reading where
  tree : Option Node
  lexical : List LexicalError
  errors : List SyntaxError

namespace Reading

/-- Whether there are mistakes of either step. -/
def hasErrors (r : Reading) : Bool := !r.lexical.isEmpty || !r.errors.isEmpty

/-- The tree of a text without mistakes. -/
def validTree (r : Reading) : Option Node := if r.hasErrors then none else r.tree

/-- The document of the tree; without a tree the document is empty. -/
def document (r : Reading) : Build Document :=
  match r.tree with
  | some tree => Document.ofTree tree
  | none => .ok .empty

/-- How many mistakes there are. -/
def errorCount (r : Reading) : Nat := r.lexical.length + r.errors.length

/-- All mistakes as they are shown, if they can be. -/
def report (r : Reading) (source : Option String) (format : ErrorFormat := .detailed) :
    Layout String :=
  GraphQL.report format r.lexical r.errors source

end Reading

namespace Grammar

/-- Reads the tokens of a text as one rule. -/
def readScan (g : Grammar) (scan : Scan) (entry : Rule := .document) (mode : Mode := .tree) :
    Reading :=
  let parse := g.parse entry scan.tokens mode
  { tree := parse.tree, lexical := scan.errors, errors := parse.errors }

/-- Reads a text as one rule. -/
def readSource (g : Grammar) (source : String) (file : Option String := none)
    (entry : Rule := .document) (mode : Mode := .tree) : Reading :=
  g.readScan (Scan.ofSource source file) entry mode

end Grammar

end GraphQL
