/-
  The places of a document, as they are nested.

  A part of a document has its place, and within it stand the parts that it is made of, each with its
  own.  `Extent` keeps only that: a place above the extents of the parts.  What has no place of its
  own, a list or a choice, gives the extents of what it holds; that is why `extents` gives a list.

  `Extent.Nested` is what one wants of places: each lies inside all those above it.
-/
import GraphQL.Document.OfTree.Definition
import GraphQL.Proofs.Spans

namespace GraphQL

/-! ## Extents -/

/-- The place of something, above the places of its parts. -/
inductive Extent where
  | mk (loc : ByteSpan) (parts : List Extent)

namespace Extent

/-- The place itself. -/
def loc : Extent → ByteSpan
  | ⟨loc, _⟩ => loc

/-- The extents of the parts. -/
def parts : Extent → List Extent
  | ⟨_, parts⟩ => parts

/-- Whether an extent is a whole itself or that of some part of it, at any depth. -/
inductive Under : Extent → Extent → Prop where
  | self (whole : Extent) : Under whole whole
  | part {e p whole : Extent} (mem : p ∈ whole.parts) (under : Under e p) : Under e whole

/-- Every place lies inside the places of all that it is part of. -/
def Nested (whole : Extent) : Prop :=
  ∀ outer inner : Extent, outer.Under whole → inner.Under outer → inner.loc.Inside outer.loc

/-- It is enough that each part is nested and lies inside the whole: lying inside is transitive. -/
theorem nested_mk {loc : ByteSpan} {parts : List Extent}
    (h : ∀ p ∈ parts, p.Nested ∧ p.loc.Inside loc) : Nested ⟨loc, parts⟩ := by
  intro outer inner below within
  cases below with
  | self =>
    cases within with
    | self => exact .refl _
    | part mem under =>
      obtain ⟨nested, inside⟩ := h _ mem
      exact (nested _ _ (.self _) under).trans inside
  | part mem under => exact (h _ mem).1 outer inner under within

end Extent

/-- Things that hold places. -/
class HasExtents (α : Type) where
  /-- The extents of what stands in something next to each other. -/
  extents : α → List Extent

export HasExtents (extents)

instance {α : Type} [HasExtents α] : HasExtents (Option α) where
  extents
    | none => []
    | some a => extents a

instance {α : Type} [HasExtents α] : HasExtents (List α) where
  extents as := as.flatMap extents

instance {α β : Type} [HasExtents α] [HasExtents β] : HasExtents (α × β) where
  extents p := extents p.1 ++ extents p.2

/-! ## Names, types and values -/

instance : HasExtents Name where
  extents n := [⟨n.loc, []⟩]

instance : HasExtents Variable where
  extents v := [⟨v.loc, extents v.name⟩]

instance : HasExtents NamedType where
  extents t := [⟨t.loc, extents t.name⟩]

/-- The extent of a type reference.  A named type stands for itself. -/
def TypeReference.extents : TypeReference → List Extent
  | .named t => GraphQL.extents t
  | .list element loc => [⟨loc, element.extents⟩]
  | .nonNull inner loc => [⟨loc, inner.extents⟩]

instance : HasExtents TypeReference := ⟨TypeReference.extents⟩

instance : HasExtents StringValue where
  extents s := [⟨s.loc, []⟩]

mutual

/-- The extent of a value.  A variable and a string stand for themselves. -/
def Value.extents : Value → List Extent
  | .variable v => GraphQL.extents v
  | .int _ loc => [⟨loc, []⟩]
  | .float _ loc => [⟨loc, []⟩]
  | .string s => GraphQL.extents s
  | .boolean _ loc => [⟨loc, []⟩]
  | .null loc => [⟨loc, []⟩]
  | .enum _ loc => [⟨loc, []⟩]
  | .list values loc => [⟨loc, Value.allExtents values⟩]
  | .object fields loc => [⟨loc, ObjectField.allExtents fields⟩]
  | .missing => [⟨.nowhere, []⟩]

/-- The extent of a field of an input object. -/
def ObjectField.extents : ObjectField → List Extent
  | ⟨name, value, loc⟩ => [⟨loc, GraphQL.extents name ++ value.extents⟩]

/-- The extents of some values. -/
def Value.allExtents : List Value → List Extent
  | [] => []
  | v :: rest => v.extents ++ Value.allExtents rest

/-- The extents of some fields. -/
def ObjectField.allExtents : List ObjectField → List Extent
  | [] => []
  | f :: rest => f.extents ++ ObjectField.allExtents rest

end

instance : HasExtents Value := ⟨Value.extents⟩

instance : HasExtents ObjectField := ⟨ObjectField.extents⟩

/-! ## Selections -/

instance : HasExtents Argument where
  extents a := [⟨a.loc, extents a.name ++ extents a.value⟩]

instance : HasExtents Directive where
  extents d := [⟨d.loc, extents d.name ++ extents d.arguments⟩]

instance : HasExtents FragmentSpread where
  extents s := [⟨s.loc, extents s.name ++ extents s.directives⟩]

mutual

/-- The extent of a selection, of whichever sort. -/
def Selection.extents : Selection → List Extent
  | .field f => f.extents
  | .spread s => GraphQL.extents s
  | .inline f => f.extents

/-- The extent of a field. -/
def Field.extents : Field → List Extent
  | ⟨aliasName, name, arguments, directives, selectionSet, loc⟩ =>
    [⟨loc, GraphQL.extents aliasName ++ GraphQL.extents name ++ GraphQL.extents arguments
      ++ GraphQL.extents directives ++ SelectionSet.optionExtents selectionSet⟩]

/-- The extent of a fragment in place. -/
def InlineFragment.extents : InlineFragment → List Extent
  | ⟨typeCondition, directives, selectionSet, loc⟩ =>
    [⟨loc, GraphQL.extents typeCondition ++ GraphQL.extents directives
      ++ selectionSet.extents⟩]

/-- The extent of a selection set. -/
def SelectionSet.extents : SelectionSet → List Extent
  | ⟨selections, loc⟩ => [⟨loc, Selection.allExtents selections⟩]

/-- The extent of a selection set that may be there. -/
def SelectionSet.optionExtents : Option SelectionSet → List Extent
  | none => []
  | some s => s.extents

/-- The extents of some selections. -/
def Selection.allExtents : List Selection → List Extent
  | [] => []
  | s :: rest => s.extents ++ Selection.allExtents rest

end

instance : HasExtents Selection := ⟨Selection.extents⟩

instance : HasExtents Field := ⟨Field.extents⟩

instance : HasExtents InlineFragment := ⟨InlineFragment.extents⟩

instance : HasExtents SelectionSet := ⟨SelectionSet.extents⟩

/-! ## Operations and fragments -/

instance : HasExtents VariableDefinition where
  extents v := [⟨v.loc, extents v.declared ++ extents v.type ++ extents v.defaultValue⟩]

instance : HasExtents OperationDefinition where
  extents o := [⟨o.loc, extents o.name ++ extents o.variableDefinitions ++ extents o.directives
    ++ extents o.selectionSet⟩]

instance : HasExtents FragmentDefinition where
  extents f := [⟨f.loc, extents f.name ++ extents f.variableDefinitions ++ extents f.typeCondition
    ++ extents f.directives ++ extents f.selectionSet⟩]

/-! ## Type systems -/

instance : HasExtents InputValueDefinition where
  extents v := [⟨v.loc, extents v.description ++ extents v.name ++ extents v.type
    ++ extents v.defaultValue ++ extents v.directives⟩]

instance : HasExtents FieldDefinition where
  extents f := [⟨f.loc, extents f.description ++ extents f.name ++ extents f.arguments
    ++ extents f.type ++ extents f.directives⟩]

instance : HasExtents EnumValueDefinition where
  extents v := [⟨v.loc, extents v.description ++ extents v.name ++ extents v.directives⟩]

instance : HasExtents OperationTypeDefinition where
  extents t := [⟨t.loc, extents t.type⟩]

instance : HasExtents SchemaDefinition where
  extents s := [⟨s.loc, extents s.directives ++ extents s.operationTypes⟩]

instance : HasExtents TypeShape where
  extents
    | .scalar => []
    | .object interfaces fields => extents interfaces ++ extents fields
    | .interface fields => extents fields
    | .union types => extents types
    | .enum values => extents values
    | .inputObject fields => extents fields

instance : HasExtents TypeDefinition where
  extents t := [⟨t.loc, extents t.description ++ extents t.name ++ extents t.directives
    ++ extents t.shape⟩]

instance : HasExtents TypeExtension where
  extents t := [⟨t.loc, extents t.name ++ extents t.directives ++ extents t.shape⟩]

instance : HasExtents DirectiveDefinition where
  extents d := [⟨d.loc, extents d.description ++ extents d.name ++ extents d.arguments
    ++ extents d.locations⟩]

/-! ## Documents -/

instance : HasExtents Definition where
  extents
    | .operation o => extents o
    | .fragment f => extents f
    | .schema s => extents s
    | .type t => extents t
    | .directive d => extents d
    | .schemaExtension s => extents s
    | .typeExtension t => extents t

instance : HasExtents Document where
  extents d := [⟨d.loc, extents d.definitions⟩]

instance : HasExtents Construct where
  extents
    | .document d => extents d
    | .definition d => extents d
    | .operationKind _ => []
    | .selectionSet s => extents s
    | .selection s => extents s
    | .name n => extents n
    | .arguments as => extents as
    | .argument a => extents a
    | .namedType t => extents t
    | .value v => extents v
    | .objectField f => extents f
    | .variableDefinitions vs => extents vs
    | .variableDefinition v => extents v
    | .variable v => extents v
    | .type t => extents t
    | .directives ds => extents ds
    | .directive d => extents d
    | .operationTypes ts => extents ts
    | .operationType t => extents t
    | .description s => extents s
    | .namedTypes ts => extents ts
    | .fields fs => extents fs
    | .field f => extents f
    | .inputValues vs => extents vs
    | .inputValue v => extents v
    | .enumValues vs => extents vs
    | .enumValue v => extents v
    | .names ns => extents ns

end GraphQL
