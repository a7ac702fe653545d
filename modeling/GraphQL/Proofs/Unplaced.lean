/-
  Documents without their places.

  Every part of a document says which bytes of the text it was made from.  `unplaced` forgets that,
  at every depth, and nothing else: two documents are alike without their places if they differ in
  nothing but where their parts stood.
-/
import GraphQL.Document.Definition

namespace GraphQL

/-! ## Names, types and values -/

/-- A name without its place. -/
def Name.unplaced (n : Name) : Name := { n with loc := .nowhere }

/-- A variable without its places. -/
def Variable.unplaced (v : Variable) : Variable := ⟨v.name.unplaced, .nowhere⟩

/-- A named type without its places. -/
def NamedType.unplaced (t : NamedType) : NamedType := ⟨t.name.unplaced, .nowhere⟩

/-- A type reference without its places. -/
def TypeReference.unplaced : TypeReference → TypeReference
  | .named t => .named t.unplaced
  | .list element _ => .list element.unplaced .nowhere
  | .nonNull inner _ => .nonNull inner.unplaced .nowhere

/-- A string literal without its place. -/
def StringValue.unplaced (s : StringValue) : StringValue := { s with loc := .nowhere }

mutual

/-- A value without its places. -/
def Value.unplaced : Value → Value
  | .variable v => .variable v.unplaced
  | .int literal _ => .int literal .nowhere
  | .float literal _ => .float literal .nowhere
  | .string s => .string s.unplaced
  | .boolean b _ => .boolean b .nowhere
  | .null _ => .null .nowhere
  | .enum name _ => .enum name .nowhere
  | .list values _ => .list (Value.allUnplaced values) .nowhere
  | .object fields _ => .object (ObjectField.allUnplaced fields) .nowhere
  | .missing => .missing

/-- A field of an input object without its places. -/
def ObjectField.unplaced : ObjectField → ObjectField
  | ⟨name, value, _⟩ => ⟨name.unplaced, value.unplaced, .nowhere⟩

/-- Some values without their places. -/
def Value.allUnplaced : List Value → List Value
  | [] => []
  | v :: rest => v.unplaced :: Value.allUnplaced rest

/-- Some fields without their places. -/
def ObjectField.allUnplaced : List ObjectField → List ObjectField
  | [] => []
  | f :: rest => f.unplaced :: ObjectField.allUnplaced rest

end

/-! ## Selections -/

/-- An argument without its places. -/
def Argument.unplaced (a : Argument) : Argument := ⟨a.name.unplaced, a.value.unplaced, .nowhere⟩

/-- A directive without its places. -/
def Directive.unplaced (d : Directive) : Directive :=
  ⟨d.name.unplaced, d.arguments.map Argument.unplaced, .nowhere⟩

/-- The place of a fragment without the places of the text. -/
def FragmentSpread.unplaced (s : FragmentSpread) : FragmentSpread :=
  ⟨s.name.unplaced, s.directives.map Directive.unplaced, .nowhere⟩

mutual

/-- A selection without its places. -/
def Selection.unplaced : Selection → Selection
  | .field f => .field f.unplaced
  | .spread s => .spread s.unplaced
  | .inline f => .inline f.unplaced

/-- A field without its places. -/
def Field.unplaced : Field → Field
  | ⟨aliasName, name, arguments, directives, selectionSet, _⟩ =>
    ⟨aliasName.map Name.unplaced, name.unplaced, arguments.map Argument.unplaced,
      directives.map Directive.unplaced, SelectionSet.optionUnplaced selectionSet, .nowhere⟩

/-- A fragment in place without its places in the text. -/
def InlineFragment.unplaced : InlineFragment → InlineFragment
  | ⟨typeCondition, directives, selectionSet, _⟩ =>
    ⟨typeCondition.map NamedType.unplaced, directives.map Directive.unplaced,
      selectionSet.unplaced, .nowhere⟩

/-- A selection set without its places. -/
def SelectionSet.unplaced : SelectionSet → SelectionSet
  | ⟨selections, _⟩ => ⟨Selection.allUnplaced selections, .nowhere⟩

/-- A selection set that may be there, without its places. -/
def SelectionSet.optionUnplaced : Option SelectionSet → Option SelectionSet
  | none => none
  | some s => some s.unplaced

/-- Some selections without their places. -/
def Selection.allUnplaced : List Selection → List Selection
  | [] => []
  | s :: rest => s.unplaced :: Selection.allUnplaced rest

end

/-! ## Operations and fragments -/

/-- The declaration of a variable without its places. -/
def VariableDefinition.unplaced (v : VariableDefinition) : VariableDefinition :=
  ⟨v.declared.unplaced, v.type.unplaced, v.defaultValue.map Value.unplaced, .nowhere⟩

/-- An operation without its places. -/
def OperationDefinition.unplaced (o : OperationDefinition) : OperationDefinition where
  operation := o.operation
  name := o.name.map Name.unplaced
  variableDefinitions := o.variableDefinitions.map VariableDefinition.unplaced
  directives := o.directives.map Directive.unplaced
  selectionSet := o.selectionSet.unplaced
  loc := .nowhere

/-- A named fragment without its places. -/
def FragmentDefinition.unplaced (f : FragmentDefinition) : FragmentDefinition where
  name := f.name.unplaced
  variableDefinitions := f.variableDefinitions.map (List.map VariableDefinition.unplaced)
  typeCondition := f.typeCondition.unplaced
  directives := f.directives.map Directive.unplaced
  selectionSet := f.selectionSet.unplaced
  loc := .nowhere

/-! ## Type systems -/

/-- The definition of an input value without its places. -/
def InputValueDefinition.unplaced (v : InputValueDefinition) : InputValueDefinition where
  description := v.description.map StringValue.unplaced
  name := v.name.unplaced
  type := v.type.unplaced
  defaultValue := v.defaultValue.map Value.unplaced
  directives := v.directives.map Directive.unplaced
  loc := .nowhere

/-- The definition of a field without its places. -/
def FieldDefinition.unplaced (f : FieldDefinition) : FieldDefinition where
  description := f.description.map StringValue.unplaced
  name := f.name.unplaced
  arguments := f.arguments.map InputValueDefinition.unplaced
  type := f.type.unplaced
  directives := f.directives.map Directive.unplaced
  loc := .nowhere

/-- The definition of an enumeration value without its places. -/
def EnumValueDefinition.unplaced (v : EnumValueDefinition) : EnumValueDefinition where
  description := v.description.map StringValue.unplaced
  name := v.name.unplaced
  directives := v.directives.map Directive.unplaced
  loc := .nowhere

/-- The type of one sort of operation without its places. -/
def OperationTypeDefinition.unplaced (t : OperationTypeDefinition) : OperationTypeDefinition :=
  ⟨t.operation, t.type.unplaced, .nowhere⟩

/-- A schema without its places. -/
def SchemaDefinition.unplaced (s : SchemaDefinition) : SchemaDefinition where
  directives := s.directives.map Directive.unplaced
  operationTypes := s.operationTypes.map OperationTypeDefinition.unplaced
  loc := .nowhere

/-- The members of a type without their places. -/
def TypeShape.unplaced : TypeShape → TypeShape
  | .scalar => .scalar
  | .object interfaces fields =>
    .object (interfaces.map NamedType.unplaced) (fields.map FieldDefinition.unplaced)
  | .interface fields => .interface (fields.map FieldDefinition.unplaced)
  | .union types => .union (types.map NamedType.unplaced)
  | .enum values => .enum (values.map EnumValueDefinition.unplaced)
  | .inputObject fields => .inputObject (fields.map InputValueDefinition.unplaced)

/-- The definition of a type without its places. -/
def TypeDefinition.unplaced (t : TypeDefinition) : TypeDefinition where
  description := t.description.map StringValue.unplaced
  name := t.name.unplaced
  directives := t.directives.map Directive.unplaced
  shape := t.shape.unplaced
  loc := .nowhere

/-- The extension of a type without its places. -/
def TypeExtension.unplaced (t : TypeExtension) : TypeExtension where
  name := t.name.unplaced
  directives := t.directives.map Directive.unplaced
  shape := t.shape.unplaced
  loc := .nowhere

/-- The definition of a directive without the places of the text. -/
def DirectiveDefinition.unplaced (d : DirectiveDefinition) : DirectiveDefinition where
  description := d.description.map StringValue.unplaced
  name := d.name.unplaced
  arguments := d.arguments.map InputValueDefinition.unplaced
  locations := d.locations.map Name.unplaced
  loc := .nowhere

/-! ## Documents -/

/-- A definition without its places. -/
def Definition.unplaced : Definition → Definition
  | .operation o => .operation o.unplaced
  | .fragment f => .fragment f.unplaced
  | .schema s => .schema s.unplaced
  | .type t => .type t.unplaced
  | .directive d => .directive d.unplaced
  | .schemaExtension s => .schemaExtension s.unplaced
  | .typeExtension t => .typeExtension t.unplaced

/-- A document without its places. -/
def Document.unplaced (d : Document) : Document :=
  ⟨d.definitions.map Definition.unplaced, .nowhere⟩

end GraphQL
