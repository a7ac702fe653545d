/-
  Names, types and input values.

  Literals are kept as they are written; `GraphQL.Literal` says what they stand for.  Each part
  carries the bytes of the text that it was made from.  A part that a broken text lacks is filled
  in: a name is then empty and nowhere (`Name.missing`), and a value is `Value.missing`.
-/
import GraphQL.Literal.Decimal
import GraphQL.Literal.Quoted
import GraphQL.Source

namespace GraphQL

/-! ## Names -/

/-- A name as it is written. -/
structure Name where
  value : String
  loc : ByteSpan
deriving DecidableEq, Repr, Inhabited

namespace Name

/-- Stands for a name that a broken text lacks. -/
def missing : Name := ⟨"", .nowhere⟩

/-- Whether the name stands for one that is lacking. -/
def isMissing (n : Name) : Bool := n.value.isEmpty && !n.loc.isPlace

end Name

/-- A variable: a dollar sign and a name. -/
structure Variable where
  name : Name
  loc : ByteSpan
deriving DecidableEq, Repr, Inhabited

/-! ## Types -/

/-- A type that is referred to by its name. -/
structure NamedType where
  name : Name
  loc : ByteSpan
deriving DecidableEq, Repr, Inhabited

/-- Stands for a type that a broken text lacks. -/
def NamedType.missing : NamedType := ⟨.missing, .nowhere⟩

/-- A type as it is written: a name, a list in brackets, or either with an exclamation mark. -/
inductive TypeReference where
  | named (t : NamedType)
  | list (element : TypeReference) (loc : ByteSpan)
  | nonNull (inner : TypeReference) (loc : ByteSpan)
deriving DecidableEq, Repr, Inhabited

namespace TypeReference

/-- What sort of reference it is. -/
def kind : TypeReference → String
  | .named _ => "NamedType"
  | .list _ _ => "ListType"
  | .nonNull _ _ => "NonNullType"

/-- The bytes that the reference covers. -/
def loc : TypeReference → ByteSpan
  | .named t => t.loc
  | .list _ loc => loc
  | .nonNull _ loc => loc

/-- The name inside all lists and marks. -/
def innermostName : TypeReference → Name
  | .named t => t.name
  | .list element _ => element.innermostName
  | .nonNull inner _ => inner.innermostName

/-- Whether the outermost mark rules out null. -/
def isNonNull : TypeReference → Bool
  | .nonNull _ _ => true
  | _ => false

end TypeReference

/-! ## Values -/

/-- A string literal, with its quotes. -/
structure StringValue where
  value : String
  /-- Whether the quotes are triple. -/
  block : Bool
  loc : ByteSpan
deriving DecidableEq, Repr, Inhabited

/-- The text that a string literal stands for. -/
def StringValue.text (s : StringValue) : Except QuotedError String := Quoted.decode s.block s.value

mutual

/-- An input value. -/
inductive Value where
  | variable (v : Variable)
  | int (literal : String) (loc : ByteSpan)
  | float (literal : String) (loc : ByteSpan)
  | string (s : StringValue)
  | boolean (b : Bool) (loc : ByteSpan)
  | null (loc : ByteSpan)
  | enum (name : String) (loc : ByteSpan)
  | list (values : List Value) (loc : ByteSpan)
  | object (fields : List ObjectField) (loc : ByteSpan)
  /-- Stands for a value that a broken text lacks. -/
  | missing

/-- A field of an input object. -/
structure ObjectField where
  name : Name
  value : Value
  loc : ByteSpan

end

instance : Inhabited Value := ⟨.missing⟩

namespace Value

/-- What sort of value it is. -/
def kind : Value → String
  | .variable _ => "Variable"
  | .int _ _ => "IntValue"
  | .float _ _ => "FloatValue"
  | .string _ => "StringValue"
  | .boolean _ _ => "BooleanValue"
  | .null _ => "NullValue"
  | .enum _ _ => "EnumValue"
  | .list _ _ => "ListValue"
  | .object _ _ => "ObjectValue"
  | .missing => "Missing"

/-- The bytes that the value covers. -/
def loc : Value → ByteSpan
  | .variable v => v.loc
  | .int _ loc => loc
  | .float _ loc => loc
  | .string s => s.loc
  | .boolean _ loc => loc
  | .null loc => loc
  | .enum _ loc => loc
  | .list _ loc => loc
  | .object _ loc => loc
  | .missing => .nowhere

end Value

mutual

/-- Whether no variable stands in a value, at any depth. -/
def Value.isConst : Value → Bool
  | .variable _ => false
  | .list values _ => Value.allConst values
  | .object fields _ => ObjectField.allConst fields
  | _ => true

/-- Whether no variable stands in a field. -/
def ObjectField.isConst : ObjectField → Bool
  | ⟨_, value, _⟩ => value.isConst

/-- Whether no variable stands in any of some values. -/
def Value.allConst : List Value → Bool
  | [] => true
  | v :: rest => v.isConst && Value.allConst rest

/-- Whether no variable stands in any of some fields. -/
def ObjectField.allConst : List ObjectField → Bool
  | [] => true
  | f :: rest => f.isConst && ObjectField.allConst rest

end

end GraphQL
