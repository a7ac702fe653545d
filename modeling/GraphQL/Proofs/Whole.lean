/-
  Documents without gaps.

  What a broken text lacks is filled in when a document is made of it: by a name that is missing, by
  a missing value, or by a selection set that selects nothing.  `isWhole` says of each part of a
  document that none of these stands in it, at any depth.
-/
import GraphQL.Document.Definition

namespace GraphQL

/-! ## Names, types and values -/

/-- Whether a name is there. -/
def Name.isWhole (n : Name) : Bool := !n.isMissing

/-- Whether the name of a variable is there. -/
def Variable.isWhole (v : Variable) : Bool := v.name.isWhole

/-- Whether the name of a type is there. -/
def NamedType.isWhole (t : NamedType) : Bool := t.name.isWhole

/-- Whether the name in a type reference is there. -/
def TypeReference.isWhole : TypeReference → Bool
  | .named t => t.isWhole
  | .list element _ => element.isWhole
  | .nonNull inner _ => inner.isWhole

mutual

/-- Whether nothing is missing in a value. -/
def Value.isWhole : Value → Bool
  | .variable v => v.isWhole
  | .list values _ => Value.allWhole values
  | .object fields _ => ObjectField.allWhole fields
  | .missing => false
  | _ => true

/-- Whether nothing is missing in a field. -/
def ObjectField.isWhole : ObjectField → Bool
  | ⟨name, value, _⟩ => name.isWhole && value.isWhole

/-- Whether nothing is missing in any of some values. -/
def Value.allWhole : List Value → Bool
  | [] => true
  | v :: rest => v.isWhole && Value.allWhole rest

/-- Whether nothing is missing in any of some fields. -/
def ObjectField.allWhole : List ObjectField → Bool
  | [] => true
  | f :: rest => f.isWhole && ObjectField.allWhole rest

end

theorem Value.allWhole_eq (vs : List Value) : Value.allWhole vs = vs.all Value.isWhole := by
  induction vs with
  | nil => rfl
  | cons v rest ih => simp [Value.allWhole, ih]

theorem ObjectField.allWhole_eq (fs : List ObjectField) :
    ObjectField.allWhole fs = fs.all ObjectField.isWhole := by
  induction fs with
  | nil => rfl
  | cons f rest ih => simp [ObjectField.allWhole, ih]

/-! ## Selections -/

/-- Whether nothing is missing in an argument. -/
def Argument.isWhole (a : Argument) : Bool := a.name.isWhole && a.value.isWhole

/-- Whether nothing is missing in a directive. -/
def Directive.isWhole (d : Directive) : Bool := d.name.isWhole && d.arguments.all Argument.isWhole

/-- Whether nothing is missing in the place of a fragment. -/
def FragmentSpread.isWhole (s : FragmentSpread) : Bool :=
  s.name.isWhole && s.directives.all Directive.isWhole

mutual

/-- Whether nothing is missing in a selection. -/
def Selection.isWhole : Selection → Bool
  | .field f => f.isWhole
  | .spread s => s.isWhole
  | .inline f => f.isWhole

/-- Whether nothing is missing in a field. -/
def Field.isWhole : Field → Bool
  | ⟨aliasName, name, arguments, directives, selectionSet, _⟩ =>
    aliasName.all Name.isWhole && name.isWhole && arguments.all Argument.isWhole
      && directives.all Directive.isWhole && SelectionSet.optionWhole selectionSet

/-- Whether nothing is missing in a fragment in place. -/
def InlineFragment.isWhole : InlineFragment → Bool
  | ⟨typeCondition, directives, selectionSet, _⟩ =>
    typeCondition.all NamedType.isWhole && directives.all Directive.isWhole && selectionSet.isWhole

/-- Whether a selection set selects something, and nothing is missing in it. -/
def SelectionSet.isWhole : SelectionSet → Bool
  | ⟨selections, _⟩ => !selections.isEmpty && Selection.allWhole selections

/-- Whether a selection set is whole if it is there. -/
def SelectionSet.optionWhole : Option SelectionSet → Bool
  | none => true
  | some s => s.isWhole

/-- Whether nothing is missing in any of some selections. -/
def Selection.allWhole : List Selection → Bool
  | [] => true
  | s :: rest => s.isWhole && Selection.allWhole rest

end

theorem SelectionSet.optionWhole_eq (s? : Option SelectionSet) :
    SelectionSet.optionWhole s? = s?.all SelectionSet.isWhole := by
  cases s? <;> rfl

theorem Selection.allWhole_eq (ss : List Selection) :
    Selection.allWhole ss = ss.all Selection.isWhole := by
  induction ss with
  | nil => rfl
  | cons s rest ih => simp [Selection.allWhole, ih]

/-! ## Operations and fragments -/

/-- Whether nothing is missing in the declaration of a variable. -/
def VariableDefinition.isWhole (v : VariableDefinition) : Bool :=
  v.declared.isWhole && v.type.isWhole && v.defaultValue.all Value.isWhole

/-- Whether nothing is missing in an operation. -/
def OperationDefinition.isWhole (o : OperationDefinition) : Bool :=
  o.name.all Name.isWhole && o.variableDefinitions.all VariableDefinition.isWhole
    && o.directives.all Directive.isWhole && o.selectionSet.isWhole

/-- Whether nothing is missing in a named fragment. -/
def FragmentDefinition.isWhole (f : FragmentDefinition) : Bool :=
  f.name.isWhole && f.variableDefinitions.all (List.all · VariableDefinition.isWhole)
    && f.typeCondition.isWhole && f.directives.all Directive.isWhole && f.selectionSet.isWhole

/-! ## Type systems -/

/-- Whether nothing is missing in the definition of an input value. -/
def InputValueDefinition.isWhole (v : InputValueDefinition) : Bool :=
  v.name.isWhole && v.type.isWhole && v.defaultValue.all Value.isWhole
    && v.directives.all Directive.isWhole

/-- Whether nothing is missing in the definition of a field. -/
def FieldDefinition.isWhole (f : FieldDefinition) : Bool :=
  f.name.isWhole && f.arguments.all InputValueDefinition.isWhole && f.type.isWhole
    && f.directives.all Directive.isWhole

/-- Whether nothing is missing in the definition of an enumeration value. -/
def EnumValueDefinition.isWhole (v : EnumValueDefinition) : Bool :=
  v.name.isWhole && v.directives.all Directive.isWhole

/-- Whether nothing is missing in the type of one sort of operation. -/
def OperationTypeDefinition.isWhole (t : OperationTypeDefinition) : Bool := t.type.isWhole

/-- Whether nothing is missing in a schema. -/
def SchemaDefinition.isWhole (s : SchemaDefinition) : Bool :=
  s.directives.all Directive.isWhole && s.operationTypes.all OperationTypeDefinition.isWhole

/-- Whether nothing is missing in the members of a type. -/
def TypeShape.isWhole : TypeShape → Bool
  | .scalar => true
  | .object interfaces fields =>
    interfaces.all NamedType.isWhole && fields.all FieldDefinition.isWhole
  | .interface fields => fields.all FieldDefinition.isWhole
  | .union types => types.all NamedType.isWhole
  | .enum values => values.all EnumValueDefinition.isWhole
  | .inputObject fields => fields.all InputValueDefinition.isWhole

/-- Whether nothing is missing in the definition of a type. -/
def TypeDefinition.isWhole (t : TypeDefinition) : Bool :=
  t.name.isWhole && t.directives.all Directive.isWhole && t.shape.isWhole

/-- Whether nothing is missing in the extension of a type. -/
def TypeExtension.isWhole (t : TypeExtension) : Bool :=
  t.name.isWhole && t.directives.all Directive.isWhole && t.shape.isWhole

/-- Whether nothing is missing in the definition of a directive. -/
def DirectiveDefinition.isWhole (d : DirectiveDefinition) : Bool :=
  d.name.isWhole && d.arguments.all InputValueDefinition.isWhole && d.locations.all Name.isWhole

/-! ## Documents -/

/-- Whether nothing is missing in a definition. -/
def Definition.isWhole : Definition → Bool
  | .operation o => o.isWhole
  | .fragment f => f.isWhole
  | .schema s => s.isWhole
  | .type t => t.isWhole
  | .directive d => d.isWhole
  | .schemaExtension s => s.isWhole
  | .typeExtension t => t.isWhole

/-- Whether nothing is missing in a document. -/
def Document.isWhole (d : Document) : Bool := d.definitions.all Definition.isWhole

end GraphQL
