/-
  Documents as JSON.

  Each part is an object that names its kind first and the bytes it covers last; between them stand
  its members in a fixed order.  A member that may be absent is null if it is, save for the
  variables of a fragment, which are then left out.  A value that a broken text lacks is null.
-/
import GraphQL.Document.Definition
import GraphQL.Json

namespace GraphQL

/-- The object of a part. -/
def Json.part (kind : String) (members : List (String × Json)) (loc : ByteSpan) : Json :=
  let place := Json.object [("start", .number loc.start), ("end", .number loc.stop)]
  .object (("kind", .string kind) :: members ++ [("loc", place)])

/-! ## Names, types and values -/

/-- The JSON of a name. -/
def Name.toJson (n : Name) : Json := .part "Name" [("value", .string n.value)] n.loc

/-- The JSON of a variable. -/
def Variable.toJson (v : Variable) : Json := .part "Variable" [("name", v.name.toJson)] v.loc

/-- The JSON of a named type. -/
def NamedType.toJson (t : NamedType) : Json := .part "NamedType" [("name", t.name.toJson)] t.loc

/-- The JSON of a type reference. -/
def TypeReference.toJson : TypeReference → Json
  | .named t => t.toJson
  | .list element loc => .part "ListType" [("type", element.toJson)] loc
  | .nonNull inner loc => .part "NonNullType" [("type", inner.toJson)] loc

/-- The JSON of a string literal. -/
def StringValue.toJson (s : StringValue) : Json :=
  .part "StringValue" [("value", .string s.value), ("block", .bool s.block)] s.loc

mutual

/-- The JSON of a value. -/
def Value.toJson : Value → Json
  | .variable v => v.toJson
  | .int literal loc => .part "IntValue" [("value", .string literal)] loc
  | .float literal loc => .part "FloatValue" [("value", .string literal)] loc
  | .string s => s.toJson
  | .boolean b loc => .part "BooleanValue" [("value", .bool b)] loc
  | .null loc => .part "NullValue" [] loc
  | .enum name loc => .part "EnumValue" [("value", .string name)] loc
  | .list values loc => .part "ListValue" [("values", .array (Value.listToJson values))] loc
  | .object fields loc =>
    .part "ObjectValue" [("fields", .array (ObjectField.listToJson fields))] loc
  | .missing => .null

/-- The JSON of a field of an input object. -/
def ObjectField.toJson : ObjectField → Json
  | ⟨name, value, loc⟩ => .part "ObjectField" [("name", name.toJson), ("value", value.toJson)] loc

/-- The JSON of each of some values. -/
def Value.listToJson : List Value → List Json
  | [] => []
  | v :: rest => v.toJson :: Value.listToJson rest

/-- The JSON of each of some fields. -/
def ObjectField.listToJson : List ObjectField → List Json
  | [] => []
  | f :: rest => f.toJson :: ObjectField.listToJson rest

end

/-! ## Selections -/

/-- The JSON of an argument. -/
def Argument.toJson (a : Argument) : Json :=
  .part "Argument" [("name", a.name.toJson), ("value", a.value.toJson)] a.loc

/-- The JSON of a directive. -/
def Directive.toJson (d : Directive) : Json :=
  .part "Directive" [("name", d.name.toJson), ("arguments", .ofList Argument.toJson d.arguments)]
    d.loc

/-- The member that lists the directives of a part. -/
def directivesMember (ds : List Directive) : String × Json :=
  ("directives", .ofList Directive.toJson ds)

/-- The JSON of the place of a fragment. -/
def FragmentSpread.toJson (s : FragmentSpread) : Json :=
  .part "FragmentSpread" [("name", s.name.toJson), directivesMember s.directives] s.loc

mutual

/-- The JSON of a selection. -/
def Selection.toJson : Selection → Json
  | .field f => f.toJson
  | .spread s => s.toJson
  | .inline f => f.toJson

/-- The JSON of a field. -/
def Field.toJson : Field → Json
  | ⟨aliasName, name, arguments, directives, selectionSet, loc⟩ =>
    .part "Field"
      [ ("alias", .ofOption Name.toJson aliasName)
      , ("name", name.toJson)
      , ("arguments", .ofList Argument.toJson arguments)
      , directivesMember directives
      , ("selectionSet", SelectionSet.optionToJson selectionSet) ] loc

/-- The JSON of a fragment in place. -/
def InlineFragment.toJson : InlineFragment → Json
  | ⟨typeCondition, directives, selectionSet, loc⟩ =>
    .part "InlineFragment"
      [ ("typeCondition", .ofOption NamedType.toJson typeCondition)
      , directivesMember directives
      , ("selectionSet", selectionSet.toJson) ] loc

/-- The JSON of a selection set. -/
def SelectionSet.toJson : SelectionSet → Json
  | ⟨selections, loc⟩ =>
    .part "SelectionSet" [("selections", .array (Selection.listToJson selections))] loc

/-- The JSON of a selection set that may be absent. -/
def SelectionSet.optionToJson : Option SelectionSet → Json
  | none => .null
  | some s => s.toJson

/-- The JSON of each of some selections. -/
def Selection.listToJson : List Selection → List Json
  | [] => []
  | s :: rest => s.toJson :: Selection.listToJson rest

end

/-! ## Operations and fragments -/

/-- The JSON of the kind of an operation. -/
def OperationKind.toJson (o : OperationKind) : Json := .string o.keyword

/-- The JSON of the declaration of a variable. -/
def VariableDefinition.toJson (v : VariableDefinition) : Json :=
  .part "VariableDefinition"
    [ ("variable", v.declared.toJson)
    , ("type", v.type.toJson)
    , ("defaultValue", .ofOption Value.toJson v.defaultValue) ] v.loc

/-- The JSON of an operation. -/
def OperationDefinition.toJson (o : OperationDefinition) : Json :=
  .part "OperationDefinition"
    [ ("operation", o.operation.toJson)
    , ("name", .ofOption Name.toJson o.name)
    , ("variableDefinitions", .ofList VariableDefinition.toJson o.variableDefinitions)
    , directivesMember o.directives
    , ("selectionSet", o.selectionSet.toJson) ] o.loc

/-- The JSON of a named fragment. -/
def FragmentDefinition.toJson (f : FragmentDefinition) : Json :=
  let declared :=
    match f.variableDefinitions with
    | some vs => [("variableDefinitions", Json.ofList VariableDefinition.toJson vs)]
    | none => []
  .part "FragmentDefinition"
    ([("name", f.name.toJson)] ++ declared ++
      [ ("typeCondition", f.typeCondition.toJson)
      , directivesMember f.directives
      , ("selectionSet", f.selectionSet.toJson) ]) f.loc

/-! ## Type system definitions -/

/-- The members that a described and named part begins with. -/
def headingMembers (description : Option StringValue) (name : Name) : List (String × Json) :=
  [("description", .ofOption StringValue.toJson description), ("name", name.toJson)]

/-- The JSON of the definition of an input value. -/
def InputValueDefinition.toJson (v : InputValueDefinition) : Json :=
  .part "InputValueDefinition"
    (headingMembers v.description v.name ++
      [ ("type", v.type.toJson)
      , ("defaultValue", .ofOption Value.toJson v.defaultValue)
      , directivesMember v.directives ]) v.loc

/-- The JSON of the definition of a field. -/
def FieldDefinition.toJson (f : FieldDefinition) : Json :=
  .part "FieldDefinition"
    (headingMembers f.description f.name ++
      [ ("arguments", .ofList InputValueDefinition.toJson f.arguments)
      , ("type", f.type.toJson)
      , directivesMember f.directives ]) f.loc

/-- The JSON of the definition of an enumeration value. -/
def EnumValueDefinition.toJson (v : EnumValueDefinition) : Json :=
  .part "EnumValueDefinition" (headingMembers v.description v.name ++ [directivesMember v.directives]) v.loc

/-- The JSON of the type of one sort of operation. -/
def OperationTypeDefinition.toJson (o : OperationTypeDefinition) : Json :=
  .part "OperationTypeDefinition"
    [("operation", o.operation.toJson), ("type", o.type.toJson)] o.loc

/-- What a schema or its extension says, under one of the two kinds. -/
def SchemaDefinition.toJson (kind : String) (s : SchemaDefinition) : Json :=
  .part kind
    [ directivesMember s.directives
    , ("operationTypes", .ofList OperationTypeDefinition.toJson s.operationTypes) ] s.loc

/-- The members that stand before the directives of a type. -/
def TypeShape.membersBefore : TypeShape → List (String × Json)
  | .object interfaces _ => [("interfaces", .ofList NamedType.toJson interfaces)]
  | _ => []

/-- The members that stand behind the directives of a type. -/
def TypeShape.membersBehind : TypeShape → List (String × Json)
  | .scalar => []
  | .object _ fields => [("fields", .ofList FieldDefinition.toJson fields)]
  | .interface fields => [("fields", .ofList FieldDefinition.toJson fields)]
  | .union types => [("types", .ofList NamedType.toJson types)]
  | .enum values => [("values", .ofList EnumValueDefinition.toJson values)]
  | .inputObject fields => [("fields", .ofList InputValueDefinition.toJson fields)]

/-- What a type or its extension says, behind the members that it begins with. -/
def TypeShape.membersJson (shape : TypeShape) (directives : List Directive) :
    List (String × Json) :=
  shape.membersBefore ++ directivesMember directives :: shape.membersBehind

/-- The JSON of the definition of a type. -/
def TypeDefinition.toJson (t : TypeDefinition) : Json :=
  .part (t.shape.kind ++ "Definition")
    (headingMembers t.description t.name ++ t.shape.membersJson t.directives) t.loc

/-- The JSON of the extension of a type. -/
def TypeExtension.toJson (t : TypeExtension) : Json :=
  .part (t.shape.kind ++ "Extension")
    (("name", t.name.toJson) :: t.shape.membersJson t.directives) t.loc

/-- The JSON of the definition of a directive. -/
def DirectiveDefinition.toJson (d : DirectiveDefinition) : Json :=
  .part "DirectiveDefinition"
    (headingMembers d.description d.name ++
      [ ("arguments", .ofList InputValueDefinition.toJson d.arguments)
      , ("locations", .ofList Name.toJson d.locations) ]) d.loc

/-! ## Documents -/

/-- The JSON of a definition. -/
def Definition.toJson : Definition → Json
  | .operation o => o.toJson
  | .fragment f => f.toJson
  | .schema s => s.toJson "SchemaDefinition"
  | .type t => t.toJson
  | .directive d => d.toJson
  | .schemaExtension s => s.toJson "SchemaExtension"
  | .typeExtension t => t.toJson

/-- The JSON of a document. -/
def Document.toJson (d : Document) : Json :=
  .part "Document" [("definitions", .ofList Definition.toJson d.definitions)] d.loc

/-- The JSON of what a reading of some rule stands for. -/
def Construct.toJson : Construct → Json
  | .document d => d.toJson
  | .definition d => d.toJson
  | .operationKind o => o.toJson
  | .selectionSet s => s.toJson
  | .selection s => s.toJson
  | .name n => n.toJson
  | .arguments as => .ofList Argument.toJson as
  | .argument a => a.toJson
  | .namedType t => t.toJson
  | .value v => v.toJson
  | .objectField f => f.toJson
  | .variableDefinitions vs => .ofList VariableDefinition.toJson vs
  | .variableDefinition v => v.toJson
  | .variable v => v.toJson
  | .type t => t.toJson
  | .directives ds => .ofList Directive.toJson ds
  | .directive d => d.toJson
  | .operationTypes os => .ofList OperationTypeDefinition.toJson os
  | .operationType o => o.toJson
  | .description s => s.toJson
  | .namedTypes ts => .ofList NamedType.toJson ts
  | .fields fs => .ofList FieldDefinition.toJson fs
  | .field f => f.toJson
  | .inputValues vs => .ofList InputValueDefinition.toJson vs
  | .inputValue v => v.toJson
  | .enumValues vs => .ofList EnumValueDefinition.toJson vs
  | .enumValue v => v.toJson
  | .names ns => .ofList Name.toJson ns

end GraphQL
