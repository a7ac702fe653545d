/-
  Making definitions and whole documents does not look at places.

  The makers of definitions are gone through as those of their parts were (`GraphQL.Proofs.Forgetting`).
  In the end trees that are alike without their places are made into documents that are alike without
  theirs, or fail with the same error (`ofTree_alike`).
-/
import GraphQL.Proofs.Forgetting

namespace GraphQL

/-! ## Operations and fragments -/

/-- The kind of an operation is told by the label of its word, and labels stay. -/
theorem OperationKind.ofNode_unplaced (n : Node) :
    Echoes id (OperationKind.ofNode n) (OperationKind.ofNode n.unplaced) := by
  unfold OperationKind.ofNode
  rw [n.has_unplaced, n.has_unplaced, n.has_unplaced]
  split
  · rfl
  · split
    · rfl
    · split
      · rfl
      · exact (n.lack_unplaced _ (id : OperationKind → OperationKind)).bind fun kind =>
          .pure (by cases kind <;> rfl)

/-- A default is the same without places. -/
theorem givenDefault_unplaced (n : Node) :
    Echoes (Option.map Value.unplaced) (givenDefault n) (givenDefault n.unplaced) :=
  (n.withFirst_unplaced fun c _ => Value.within_unplaced c).bind fun value =>
    .pure (join_map _ value)

/-- A variable definition keeps its variable, its type and its default. -/
theorem VariableDefinition.ofNode_unplaced (n : Node) :
    Echoes VariableDefinition.unplaced (VariableDefinition.ofNode n)
      (VariableDefinition.ofNode n.unplaced) := by
  have type := TypeReference.within_unplaced n
  have default := givenDefault_unplaced n
  refine (n.withRequired_unplaced fun c _ => Variable.ofNode_unplaced c).bind fun declared =>
    type.bind fun _ => default.bind fun _ => .pure ?_
  rw [n.span_unplaced]
  cases declared <;> rfl

theorem VariableDefinition.allWithin_unplaced (n : Node) :
    Echoes (List.map VariableDefinition.unplaced) (VariableDefinition.allWithin n)
      (VariableDefinition.allWithin n.unplaced) :=
  n.withEach_unplaced fun c _ => ofNode_unplaced c

/-- An operation keeps its kind, name, variables, directives and selections. -/
theorem OperationDefinition.ofNode_unplaced (n : Node) :
    Echoes OperationDefinition.unplaced (OperationDefinition.ofNode n)
      (OperationDefinition.ofNode n.unplaced) := by
  have name : (n.unplaced.token? Category.name).map Name.ofToken
      = ((n.token? Category.name).map Name.ofToken).map Name.unplaced := by
    rw [n.token?_unplaced]
    cases n.token? Category.name <;> rfl
  have declared := listWithin_unplaced n .variableDefinitions VariableDefinition.allWithin_unplaced
  have directives := Directive.attached_unplaced n
  have selections := SelectionSet.within_unplaced n
  unfold OperationDefinition.ofNode
  refine (n.withFirst_unplaced fun c _ => OperationKind.ofNode_unplaced c).bind fun operation =>
    declared.bind fun _ => directives.bind fun _ => selections.bind fun _ => .pure ?_
  rw [n.span_unplaced, name]
  cases operation <;> rfl

/-- A fragment keeps its name, variables, type condition, directives and selections. -/
theorem FragmentDefinition.ofNode_unplaced (n : Node) :
    Echoes FragmentDefinition.unplaced (FragmentDefinition.ofNode n)
      (FragmentDefinition.ofNode n.unplaced) := by
  have name := fragmentName_unplaced n
  have directives := Directive.attached_unplaced n
  have selections := SelectionSet.within_unplaced n
  refine name.bind fun _ =>
    (n.withFirst_unplaced fun c _ => VariableDefinition.allWithin_unplaced c).bind fun _ =>
    (n.withRequired_unplaced fun c _ => NamedType.within_unplaced c).bind fun typeCondition =>
    directives.bind fun _ => selections.bind fun _ => .pure ?_
  rw [n.span_unplaced]
  cases typeCondition <;> rfl

/-! ## Parts of type definitions -/

/-- A description keeps its text. -/
theorem StringValue.describing_unplaced (n : Node) :
    Echoes (Option.map StringValue.unplaced) (StringValue.describing n)
      (StringValue.describing n.unplaced) :=
  (n.requireToken_unplaced _).bind fun token => .pure (by cases token <;> rfl)

/-- The description in a node is the same without places. -/
theorem StringValue.description_unplaced (n : Node) :
    Echoes (Option.map StringValue.unplaced) (StringValue.description n)
      (StringValue.description n.unplaced) :=
  (n.withFirst_unplaced fun c _ => describing_unplaced c).bind fun description =>
    .pure (join_map _ description)

/-- An input value keeps its description, name, type, default and directives. -/
theorem InputValueDefinition.ofNode_unplaced (n : Node) :
    Echoes InputValueDefinition.unplaced (InputValueDefinition.ofNode n)
      (InputValueDefinition.ofNode n.unplaced) := by
  have description := StringValue.description_unplaced n
  have name := Name.ofNode_unplaced Category.name n
  have type := TypeReference.within_unplaced n
  have default := givenDefault_unplaced n
  have directives := Directive.attached_unplaced n
  refine description.bind fun _ => name.bind fun _ => type.bind fun _ => default.bind fun _ =>
    directives.bind fun _ => .pure ?_
  rw [n.span_unplaced]
  rfl

theorem InputValueDefinition.allWithin_unplaced (n : Node) :
    Echoes (List.map InputValueDefinition.unplaced) (InputValueDefinition.allWithin n)
      (InputValueDefinition.allWithin n.unplaced) :=
  n.withEach_unplaced fun c _ => ofNode_unplaced c

/-- A field definition keeps its description, name, parameters, type and directives. -/
theorem FieldDefinition.ofNode_unplaced (n : Node) :
    Echoes FieldDefinition.unplaced (FieldDefinition.ofNode n)
      (FieldDefinition.ofNode n.unplaced) := by
  have description := StringValue.description_unplaced n
  have name := Name.ofNode_unplaced Category.name n
  have arguments :=
    listWithin_unplaced n .argumentsDefinition InputValueDefinition.allWithin_unplaced
  have type := TypeReference.within_unplaced n
  have directives := Directive.attached_unplaced n
  refine description.bind fun _ => name.bind fun _ => arguments.bind fun _ => type.bind fun _ =>
    directives.bind fun _ => .pure ?_
  rw [n.span_unplaced]
  rfl

theorem FieldDefinition.allWithin_unplaced (n : Node) :
    Echoes (List.map FieldDefinition.unplaced) (FieldDefinition.allWithin n)
      (FieldDefinition.allWithin n.unplaced) :=
  n.withEach_unplaced fun c _ => ofNode_unplaced c

/-- An enumeration value keeps its description, name and directives. -/
theorem EnumValueDefinition.ofNode_unplaced (n : Node) :
    Echoes EnumValueDefinition.unplaced (EnumValueDefinition.ofNode n)
      (EnumValueDefinition.ofNode n.unplaced) := by
  have description := StringValue.description_unplaced n
  have directives := Directive.attached_unplaced n
  refine (n.withRequired_unplaced fun c _ => Name.ofNode_unplaced _ c).bind fun name =>
    description.bind fun _ => directives.bind fun _ => .pure ?_
  rw [n.span_unplaced]
  cases name <;> rfl

theorem EnumValueDefinition.allWithin_unplaced (n : Node) :
    Echoes (List.map EnumValueDefinition.unplaced) (EnumValueDefinition.allWithin n)
      (EnumValueDefinition.allWithin n.unplaced) :=
  n.withEach_unplaced fun c _ => ofNode_unplaced c

/-! ## Schemas -/

/-- The type of an operation keeps the kind and the type. -/
theorem OperationTypeDefinition.ofNode_unplaced (n : Node) :
    Echoes OperationTypeDefinition.unplaced (OperationTypeDefinition.ofNode n)
      (OperationTypeDefinition.ofNode n.unplaced) := by
  have type := NamedType.within_unplaced n
  refine (n.withRequired_unplaced fun c _ => OperationKind.ofNode_unplaced c).bind fun operation =>
    type.bind fun _ => .pure ?_
  rw [n.span_unplaced]
  cases operation <;> rfl

theorem OperationTypeDefinition.allWithin_unplaced (n : Node) :
    Echoes (List.map OperationTypeDefinition.unplaced) (OperationTypeDefinition.allWithin n)
      (OperationTypeDefinition.allWithin n.unplaced) :=
  n.withEach_unplaced fun c _ => ofNode_unplaced c

/-- A schema keeps its directives and its types of operations. -/
theorem SchemaDefinition.ofNode_unplaced (n : Node) :
    Echoes SchemaDefinition.unplaced (SchemaDefinition.ofNode n)
      (SchemaDefinition.ofNode n.unplaced) := by
  have directives := Directive.attached_unplaced n
  have types := OperationTypeDefinition.allWithin_unplaced n
  refine directives.bind fun _ => types.bind fun _ => .pure ?_
  rw [n.span_unplaced]
  rfl

/-- And so does an extension of a schema. -/
theorem SchemaDefinition.extensionOfNode_unplaced (n : Node) :
    Echoes SchemaDefinition.unplaced (SchemaDefinition.extensionOfNode n)
      (SchemaDefinition.extensionOfNode n.unplaced) := by
  have directives := Directive.attached_unplaced n
  have types := listWithin_unplaced n .operationTypeDefinitionList
    OperationTypeDefinition.allWithin_unplaced
  refine directives.bind fun _ => types.bind fun _ => .pure ?_
  rw [n.span_unplaced]
  rfl

/-! ## Types -/

/-- The directives and members of a type are the same without places, whatever the sort is. -/
theorem TypeShape.ofNode_unplaced (n : Node) (sort : TypeSort) :
    Echoes (Prod.map (List.map Directive.unplaced) TypeShape.unplaced) (TypeShape.ofNode n sort)
      (TypeShape.ofNode n.unplaced sort) := by
  have directives := Directive.attached_unplaced n
  -- the sorts differ in the lists of their members
  cases sort with
  | scalar => exact directives.bind fun _ => .pure rfl
  | object =>
    have interfaces := listWithin_unplaced n .implementsInterfaces NamedType.allWithin_unplaced
    have fields := listWithin_unplaced n .fieldsDefinition FieldDefinition.allWithin_unplaced
    exact interfaces.bind fun _ => directives.bind fun _ => fields.bind fun _ => .pure rfl
  | interface =>
    have fields := listWithin_unplaced n .fieldsDefinition FieldDefinition.allWithin_unplaced
    exact directives.bind fun _ => fields.bind fun _ => .pure rfl
  | union =>
    have types := listWithin_unplaced n .unionMemberTypes NamedType.allWithin_unplaced
    exact directives.bind fun _ => types.bind fun _ => .pure rfl
  | enum =>
    have values := listWithin_unplaced n .enumValuesDefinition
      EnumValueDefinition.allWithin_unplaced
    exact directives.bind fun _ => values.bind fun _ => .pure rfl
  | inputObject =>
    have inputs := listWithin_unplaced n .inputFieldsDefinition
      InputValueDefinition.allWithin_unplaced
    exact directives.bind fun _ => inputs.bind fun _ => .pure rfl

/-- A type definition keeps its description, name, directives and members. -/
theorem TypeDefinition.ofNode_unplaced (sort : TypeSort) (n : Node) :
    Echoes TypeDefinition.unplaced (TypeDefinition.ofNode sort n)
      (TypeDefinition.ofNode sort n.unplaced) := by
  have description := StringValue.description_unplaced n
  have name := Name.ofNode_unplaced Category.name n
  have shape := TypeShape.ofNode_unplaced n sort
  refine description.bind fun _ => name.bind fun _ => shape.bind fun _ => .pure ?_
  rw [n.span_unplaced]
  rfl

/-- A type extension keeps its name, directives and members. -/
theorem TypeExtension.ofNode_unplaced (sort : TypeSort) (n : Node) :
    Echoes TypeExtension.unplaced (TypeExtension.ofNode sort n)
      (TypeExtension.ofNode sort n.unplaced) := by
  have name := Name.ofNode_unplaced Category.name n
  have shape := TypeShape.ofNode_unplaced n sort
  refine name.bind fun _ => shape.bind fun _ => .pure ?_
  rw [n.span_unplaced]
  rfl

/-! ## Directives -/

/-- The name of a location keeps its text. -/
theorem locationName_unplaced (n : Node) :
    Echoes (Option.map Name.unplaced) (locationName n) (locationName n.unplaced) := by
  unfold locationName
  rw [n.labelledTokens_unplaced, List.head?_map]
  cases n.labelledTokens.head? with
  | some t => rfl
  | none => exact n.lack_unplaced _ Name.unplaced

/-- So does a location, of either kind. -/
theorem directiveLocation_unplaced (n : Node) :
    Echoes (Option.map Name.unplaced) (directiveLocation n) (directiveLocation n.unplaced) := by
  refine n.withChosen_unplaced fun c _ => ?_
  rw [c.rule_unplaced]
  split
  · exact .some (locationName_unplaced c)
  · exact .some (locationName_unplaced c)
  · exact .none

theorem directiveLocations_unplaced (n : Node) :
    Echoes (List.map Name.unplaced) (directiveLocations n) (directiveLocations n.unplaced) :=
  n.withPresent_unplaced fun c _ => directiveLocation_unplaced c

/-- A directive definition keeps its description, name, parameters, locations and whether it may be
    repeated. -/
theorem DirectiveDefinition.ofNode_unplaced (n : Node) :
    Echoes DirectiveDefinition.unplaced (DirectiveDefinition.ofNode n)
      (DirectiveDefinition.ofNode n.unplaced) := by
  have description := StringValue.description_unplaced n
  have name := Name.ofNode_unplaced Category.name n
  have arguments :=
    listWithin_unplaced n .argumentsDefinition InputValueDefinition.allWithin_unplaced
  refine description.bind fun _ => name.bind fun _ => arguments.bind fun _ =>
    (n.withRequired_unplaced fun c _ => directiveLocations_unplaced c).bind fun locations =>
      .pure ?_
  rw [n.span_unplaced]
  cases locations <;> rfl

/-! ## Definitions -/

namespace Definition

/-- A type definition is of the same sort and, without places, the same. -/
theorem typeOfNode_unplaced (n : Node) :
    Echoes (Option.map unplaced) (typeOfNode n) (typeOfNode n.unplaced) := by
  refine n.withChosen_unplaced fun c _ => ?_
  rw [c.rule_unplaced]
  cases TypeSort.all.find? fun sort => sort.definitionRule == c.rule with
  | none => exact .none
  | some sort => exact .some ((TypeDefinition.ofNode_unplaced sort c).mapSome fun _ => rfl)

/-- So is a type extension. -/
theorem typeExtensionOfNode_unplaced (n : Node) :
    Echoes (Option.map unplaced) (typeExtensionOfNode n) (typeExtensionOfNode n.unplaced) := by
  refine n.withChosen_unplaced fun c _ => ?_
  rw [c.rule_unplaced]
  cases TypeSort.all.find? fun sort => sort.extensionRule == c.rule with
  | none => exact .none
  | some sort => exact .some ((TypeExtension.ofNode_unplaced sort c).mapSome fun _ => rfl)

/-- An executable definition is of the same kind and, without places, the same. -/
theorem executableOfNode_unplaced (n : Node) :
    Echoes (Option.map unplaced) (executableOfNode n) (executableOfNode n.unplaced) := by
  refine n.withChosen_unplaced fun c _ => ?_
  rw [c.rule_unplaced]
  split
  · exact .some ((OperationDefinition.ofNode_unplaced c).mapSome fun _ => rfl)
  · exact .some ((FragmentDefinition.ofNode_unplaced c).mapSome fun _ => rfl)
  · exact .none

/-- So is a definition of the type system. -/
theorem typeSystemOfNode_unplaced (n : Node) :
    Echoes (Option.map unplaced) (typeSystemOfNode n) (typeSystemOfNode n.unplaced) := by
  refine n.withChosen_unplaced fun c _ => ?_
  rw [c.rule_unplaced]
  split
  · exact .some ((SchemaDefinition.ofNode_unplaced c).mapSome fun _ => rfl)
  · exact .some (typeOfNode_unplaced c)
  · exact .some ((DirectiveDefinition.ofNode_unplaced c).mapSome fun _ => rfl)
  · exact .none

/-- So is an extension. -/
theorem typeSystemExtensionOfNode_unplaced (n : Node) :
    Echoes (Option.map unplaced) (typeSystemExtensionOfNode n)
      (typeSystemExtensionOfNode n.unplaced) := by
  refine n.withChosen_unplaced fun c _ => ?_
  rw [c.rule_unplaced]
  split
  · exact .some ((SchemaDefinition.extensionOfNode_unplaced c).mapSome fun _ => rfl)
  · exact .some (typeExtensionOfNode_unplaced c)
  · exact .none

/-- A definition is of the same kind and, without places, the same. -/
theorem ofNode_unplaced (n : Node) :
    Echoes (Option.map unplaced) (ofNode n) (ofNode n.unplaced) := by
  refine n.withChosen_unplaced fun c _ => ?_
  rw [c.rule_unplaced]
  split
  · exact .some (executableOfNode_unplaced c)
  · exact .some (typeSystemOfNode_unplaced c)
  · exact .some (typeSystemExtensionOfNode_unplaced c)
  · exact .none

end Definition

/-! ## Documents -/

/-- A document keeps its definitions. -/
theorem Document.ofNode_unplaced (n : Node) :
    Echoes Document.unplaced (Document.ofNode n) (Document.ofNode n.unplaced) :=
  (n.withPresent_unplaced fun c _ => Definition.ofNode_unplaced c).bind fun definitions =>
    .pure (by rw [n.span_unplaced]; rfl)

/-- A tree without places is made into the document without places. -/
theorem Document.ofTree_unplaced (tree : Node) :
    Echoes Document.unplaced (Document.ofTree tree) (Document.ofTree tree.unplaced) := by
  unfold Document.ofTree
  rw [tree.rule_unplaced]
  split
  · exact Document.ofNode_unplaced tree
  · rfl

/-- Trees that are alike without their places are made into documents that are alike without
    theirs, or fail with the same error. -/
theorem ofTree_alike {tree tree' : Node} (alike : tree.unplaced = tree'.unplaced) :
    (Document.ofTree tree).map Document.unplaced = (Document.ofTree tree').map Document.unplaced := by
  calc (Document.ofTree tree).map Document.unplaced
    _ = Document.ofTree tree.unplaced := (Document.ofTree_unplaced tree).symm
    _ = Document.ofTree tree'.unplaced := by rw [alike]
    _ = (Document.ofTree tree').map Document.unplaced := Document.ofTree_unplaced tree'

end GraphQL
