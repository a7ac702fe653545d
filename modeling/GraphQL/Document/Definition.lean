/-
  Definitions and documents.

  A document is a list of definitions, of both sorts in any order: operations and fragments, which
  can be executed, and the definitions and extensions of a type system.

  A definition of a type and an extension of one differ only in that an extension has no
  description, so the six sorts of types are told apart by the `TypeShape` that both have.
-/
import GraphQL.Document.Selection

namespace GraphQL

/-! ## Operations and fragments -/

/-- What an operation does. -/
inductive OperationKind where
  | query | mutation | subscription
deriving DecidableEq, Repr, Inhabited

/-- The keyword of an operation. -/
def OperationKind.keyword : OperationKind → String
  | .query => "query"
  | .mutation => "mutation"
  | .subscription => "subscription"

instance : ToString OperationKind := ⟨OperationKind.keyword⟩

/-- The declaration of a variable. -/
structure VariableDefinition where
  declared : Variable
  type : TypeReference
  defaultValue : Option Value
  loc : ByteSpan

/-- An operation.  One that is written as a mere selection set is a query without a name. -/
structure OperationDefinition where
  operation : OperationKind
  name : Option Name
  variableDefinitions : List VariableDefinition
  directives : List Directive
  selectionSet : SelectionSet
  loc : ByteSpan

/-- A named fragment.  It declares variables only under a grammar that has been changed so. -/
structure FragmentDefinition where
  name : Name
  variableDefinitions : Option (List VariableDefinition)
  typeCondition : NamedType
  directives : List Directive
  selectionSet : SelectionSet
  loc : ByteSpan

/-! ## Parts of type definitions -/

/-- An argument of a field or of a directive, or a field of an input type. -/
structure InputValueDefinition where
  description : Option StringValue
  name : Name
  type : TypeReference
  defaultValue : Option Value
  directives : List Directive
  loc : ByteSpan

/-- A field of an object type or of an interface. -/
structure FieldDefinition where
  description : Option StringValue
  name : Name
  arguments : List InputValueDefinition
  type : TypeReference
  directives : List Directive
  loc : ByteSpan

/-- A value of an enumeration. -/
structure EnumValueDefinition where
  description : Option StringValue
  name : Name
  directives : List Directive
  loc : ByteSpan

/-- The type that answers one sort of operation. -/
structure OperationTypeDefinition where
  operation : OperationKind
  type : NamedType
  loc : ByteSpan

/-! ## Type system definitions -/

/-- What a schema, or an extension of it, says. -/
structure SchemaDefinition where
  directives : List Directive
  operationTypes : List OperationTypeDefinition
  loc : ByteSpan

/-- What sort a type is of, and its members. -/
inductive TypeShape where
  | scalar
  | object (interfaces : List NamedType) (fields : List FieldDefinition)
  | interface (fields : List FieldDefinition)
  | union (types : List NamedType)
  | enum (values : List EnumValueDefinition)
  | inputObject (fields : List InputValueDefinition)

/-- The word for the sort of a type. -/
def TypeShape.kind : TypeShape → String
  | .scalar => "ScalarType"
  | .object _ _ => "ObjectType"
  | .interface _ => "InterfaceType"
  | .union _ => "UnionType"
  | .enum _ => "EnumType"
  | .inputObject _ => "InputObjectType"

/-- The definition of a type. -/
structure TypeDefinition where
  description : Option StringValue
  name : Name
  directives : List Directive
  shape : TypeShape
  loc : ByteSpan

/-- More directives and members of a type that is defined elsewhere. -/
structure TypeExtension where
  name : Name
  directives : List Directive
  shape : TypeShape
  loc : ByteSpan

/-- The definition of a directive, with the places where it may stand. -/
structure DirectiveDefinition where
  description : Option StringValue
  name : Name
  arguments : List InputValueDefinition
  locations : List Name
  loc : ByteSpan

/-! ## Definitions -/

/-- A definition of a document. -/
inductive Definition where
  | operation (o : OperationDefinition)
  | fragment (f : FragmentDefinition)
  | schema (s : SchemaDefinition)
  | type (t : TypeDefinition)
  | directive (d : DirectiveDefinition)
  | schemaExtension (s : SchemaDefinition)
  | typeExtension (t : TypeExtension)

namespace Definition

/-- What sort of definition it is. -/
def kind : Definition → String
  | .operation _ => "OperationDefinition"
  | .fragment _ => "FragmentDefinition"
  | .schema _ => "SchemaDefinition"
  | .type t => t.shape.kind ++ "Definition"
  | .directive _ => "DirectiveDefinition"
  | .schemaExtension _ => "SchemaExtension"
  | .typeExtension t => t.shape.kind ++ "Extension"

/-- The bytes that the definition covers. -/
def loc : Definition → ByteSpan
  | .operation o => o.loc
  | .fragment f => f.loc
  | .schema s => s.loc
  | .type t => t.loc
  | .directive d => d.loc
  | .schemaExtension s => s.loc
  | .typeExtension t => t.loc

/-- Whether the definition can be executed. -/
def isExecutable : Definition → Bool
  | .operation _ => true
  | .fragment _ => true
  | _ => false

/-- Whether the definition adds to one that stands elsewhere. -/
def isExtension : Definition → Bool
  | .schemaExtension _ => true
  | .typeExtension _ => true
  | _ => false

/-- The operation of a definition that is one. -/
def operation? : Definition → Option OperationDefinition
  | .operation o => some o
  | _ => none

/-- The fragment of a definition that is one. -/
def fragment? : Definition → Option FragmentDefinition
  | .fragment f => some f
  | _ => none

end Definition

/-! ## Documents -/

/-- A whole text. -/
structure Document where
  definitions : List Definition
  loc : ByteSpan

namespace Document

/-- The document of no text. -/
def empty : Document := ⟨[], .nowhere⟩

/-- The operations of a document, in order. -/
def operations (d : Document) : List OperationDefinition :=
  d.definitions.filterMap Definition.operation?

/-- The fragments of a document, in order. -/
def fragments (d : Document) : List FragmentDefinition :=
  d.definitions.filterMap Definition.fragment?

end Document

/-! ## Constructs

  What one reading of a rule stands for.  A rule that only groups a list stands for the list, and a
  rule that only chooses stands for what was chosen. -/

/-- What a reading of some rule stands for. -/
inductive Construct where
  | document (d : Document)
  | definition (d : Definition)
  | operationKind (o : OperationKind)
  | selectionSet (s : SelectionSet)
  | selection (s : Selection)
  | name (n : Name)
  | arguments (as : List Argument)
  | argument (a : Argument)
  | namedType (t : NamedType)
  | value (v : Value)
  | objectField (f : ObjectField)
  | variableDefinitions (vs : List VariableDefinition)
  | variableDefinition (v : VariableDefinition)
  | variable (v : Variable)
  | type (t : TypeReference)
  | directives (ds : List Directive)
  | directive (d : Directive)
  | operationTypes (os : List OperationTypeDefinition)
  | operationType (o : OperationTypeDefinition)
  | description (s : StringValue)
  | namedTypes (ts : List NamedType)
  | fields (fs : List FieldDefinition)
  | field (f : FieldDefinition)
  | inputValues (vs : List InputValueDefinition)
  | inputValue (v : InputValueDefinition)
  | enumValues (vs : List EnumValueDefinition)
  | enumValue (v : EnumValueDefinition)
  | names (ns : List Name)

end GraphQL
