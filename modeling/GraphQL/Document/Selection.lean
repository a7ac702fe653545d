/-
  What an operation asks for.

  A selection set is a list of selections between braces: fields, which may have selection sets of
  their own, spreads of named fragments, and fragments written in place.
-/
import GraphQL.Document.Value

namespace GraphQL

/-- An argument of a field or of a directive. -/
structure Argument where
  name : Name
  value : Value
  loc : ByteSpan

/-- A directive that is attached to something. -/
structure Directive where
  name : Name
  arguments : List Argument
  loc : ByteSpan

/-- The place of a named fragment. -/
structure FragmentSpread where
  name : Name
  directives : List Directive
  loc : ByteSpan

mutual

/-- One thing that is asked for. -/
inductive Selection where
  | field (f : Field)
  | spread (s : FragmentSpread)
  | inline (f : InlineFragment)

/-- A field, which may be given another key in the answer, its alias. -/
structure Field where
  aliasName : Option Name
  name : Name
  arguments : List Argument
  directives : List Directive
  selectionSet : Option SelectionSet
  loc : ByteSpan

/-- A fragment in place, which may be bound to a type. -/
structure InlineFragment where
  typeCondition : Option NamedType
  directives : List Directive
  selectionSet : SelectionSet
  loc : ByteSpan

/-- Selections between braces. -/
structure SelectionSet where
  selections : List Selection
  loc : ByteSpan

end

/-- Stands for a selection set that a broken text lacks. -/
def SelectionSet.missing : SelectionSet := ⟨[], .nowhere⟩

/-- The key of a field in the answer: its alias if it has one, else its name. -/
def Field.responseKey (f : Field) : String := (f.aliasName.getD f.name).value

namespace Selection

/-- What sort of selection it is. -/
def kind : Selection → String
  | .field _ => "Field"
  | .spread _ => "FragmentSpread"
  | .inline _ => "InlineFragment"

/-- The bytes that the selection covers. -/
def loc : Selection → ByteSpan
  | .field f => f.loc
  | .spread s => s.loc
  | .inline f => f.loc

end Selection

end GraphQL
