/-
  Definitions and documents of trees with more marks.

  The walk of `GraphQL.Proofs.Relaxing` goes on through definitions, up to what a node of any rule
  stands for.  The main result, `marks_only_excuse`, is about any tree, whether a parse gives it or
  not: with more nodes marked as broken off it still stands for what it stood for.
-/
import GraphQL.Proofs.Relaxing

namespace GraphQL

section Makers

variable {n n' : Node}

/-! ## Operations and fragments -/

/-- The three keywords are looked for first; without any, a broken node is a query. -/
theorem OperationKind.ofNode_keeps (h : n.Relaxed n') :
    Keeps (OperationKind.ofNode n) (OperationKind.ofNode n') := by
  unfold OperationKind.ofNode
  rw [h.has, h.has, h.has]
  split
  · exact .rfl
  · split
    · exact .rfl
    · split
      · exact .rfl
      · exact (h.lack _).bind fun _ => .rfl

theorem givenDefault_keeps (h : n.Relaxed n') : Keeps (givenDefault n) (givenDefault n') :=
  (h.withFirst fun _ _ _ => Value.within_keeps).bind fun _ => .rfl

/-- A variable definition is kept with its variable, type and default. -/
theorem VariableDefinition.ofNode_keeps (h : n.Relaxed n') :
    Keeps (VariableDefinition.ofNode n) (VariableDefinition.ofNode n') := by
  have type := TypeReference.within_keeps h
  have default := givenDefault_keeps h
  refine (h.withRequired fun _ _ _ => Variable.ofNode_keeps).bind fun _ => type.bind fun _ =>
    default.bind fun _ => ?_
  rw [h.span]
  exact .rfl

theorem VariableDefinition.allWithin_keeps (h : n.Relaxed n') :
    Keeps (VariableDefinition.allWithin n) (VariableDefinition.allWithin n') :=
  h.withEach fun _ _ _ => VariableDefinition.ofNode_keeps

/-- An operation is kept with its parts. -/
theorem OperationDefinition.ofNode_keeps (h : n.Relaxed n') :
    Keeps (OperationDefinition.ofNode n) (OperationDefinition.ofNode n') := by
  have operation : Keeps (n.withFirst .operationType fun c _ => OperationKind.ofNode c)
      (n'.withFirst .operationType fun c _ => OperationKind.ofNode c) :=
    h.withFirst fun _ _ _ => OperationKind.ofNode_keeps
  have declared := listWithin_keeps h .variableDefinitions VariableDefinition.allWithin_keeps
  have directives := Directive.attached_keeps h
  have selections := SelectionSet.within_keeps h
  unfold OperationDefinition.ofNode
  rw [h.span, h.token?]
  exact operation.bind fun _ => declared.bind fun _ => directives.bind fun _ =>
    selections.bind fun _ => .rfl

/-- A fragment is kept with its parts. -/
theorem FragmentDefinition.ofNode_keeps (h : n.Relaxed n') :
    Keeps (FragmentDefinition.ofNode n) (FragmentDefinition.ofNode n') := by
  have declared : Keeps (n.withFirst .variableDefinitions fun c _ => VariableDefinition.allWithin c)
      (n'.withFirst .variableDefinitions fun c _ => VariableDefinition.allWithin c) :=
    h.withFirst fun _ _ _ => VariableDefinition.allWithin_keeps
  have typeCondition : Keeps (n.withRequired .typeCondition fun c _ => NamedType.within c)
      (n'.withRequired .typeCondition fun c _ => NamedType.within c) :=
    h.withRequired fun _ _ _ => NamedType.within_keeps
  have directives := Directive.attached_keeps h
  have selections := SelectionSet.within_keeps h
  unfold FragmentDefinition.ofNode
  rw [h.span]
  exact (fragmentName_keeps h).bind fun _ => declared.bind fun _ => typeCondition.bind fun _ =>
    directives.bind fun _ => selections.bind fun _ => .rfl

/-! ## Parts of type definitions -/

theorem StringValue.describing_keeps (h : n.Relaxed n') :
    Keeps (StringValue.describing n) (StringValue.describing n') :=
  (h.requireToken _).bind fun _ => .rfl

theorem StringValue.description_keeps (h : n.Relaxed n') :
    Keeps (StringValue.description n) (StringValue.description n') :=
  (h.withFirst fun _ _ _ => StringValue.describing_keeps).bind fun _ => .rfl

/-- An input value is kept with its parts. -/
theorem InputValueDefinition.ofNode_keeps (h : n.Relaxed n') :
    Keeps (InputValueDefinition.ofNode n) (InputValueDefinition.ofNode n') := by
  have description := StringValue.description_keeps h
  have type := TypeReference.within_keeps h
  have default := givenDefault_keeps h
  have directives := Directive.attached_keeps h
  unfold InputValueDefinition.ofNode
  rw [h.span]
  exact description.bind fun _ => (Name.ofNode_keeps _ h).bind fun _ => type.bind fun _ =>
    default.bind fun _ => directives.bind fun _ => .rfl

theorem InputValueDefinition.allWithin_keeps (h : n.Relaxed n') :
    Keeps (InputValueDefinition.allWithin n) (InputValueDefinition.allWithin n') :=
  h.withEach fun _ _ _ => InputValueDefinition.ofNode_keeps

/-- A field definition is kept with its parts. -/
theorem FieldDefinition.ofNode_keeps (h : n.Relaxed n') :
    Keeps (FieldDefinition.ofNode n) (FieldDefinition.ofNode n') := by
  have description := StringValue.description_keeps h
  have arguments := listWithin_keeps h .argumentsDefinition InputValueDefinition.allWithin_keeps
  have type := TypeReference.within_keeps h
  have directives := Directive.attached_keeps h
  unfold FieldDefinition.ofNode
  rw [h.span]
  exact description.bind fun _ => (Name.ofNode_keeps _ h).bind fun _ => arguments.bind fun _ =>
    type.bind fun _ => directives.bind fun _ => .rfl

theorem FieldDefinition.allWithin_keeps (h : n.Relaxed n') :
    Keeps (FieldDefinition.allWithin n) (FieldDefinition.allWithin n') :=
  h.withEach fun _ _ _ => FieldDefinition.ofNode_keeps

/-- An enumeration value is kept with its parts. -/
theorem EnumValueDefinition.ofNode_keeps (h : n.Relaxed n') :
    Keeps (EnumValueDefinition.ofNode n) (EnumValueDefinition.ofNode n') := by
  have name : Keeps (n.withRequired .enumValue fun c _ => Name.ofNode Category.nameButLiteral c)
      (n'.withRequired .enumValue fun c _ => Name.ofNode Category.nameButLiteral c) :=
    h.withRequired fun _ _ _ => Name.ofNode_keeps _
  have description := StringValue.description_keeps h
  have directives := Directive.attached_keeps h
  unfold EnumValueDefinition.ofNode
  rw [h.span]
  exact name.bind fun _ => description.bind fun _ => directives.bind fun _ => .rfl

theorem EnumValueDefinition.allWithin_keeps (h : n.Relaxed n') :
    Keeps (EnumValueDefinition.allWithin n) (EnumValueDefinition.allWithin n') :=
  h.withEach fun _ _ _ => EnumValueDefinition.ofNode_keeps

/-! ## Schemas -/

/-- The type of an operation is kept with its kind. -/
theorem OperationTypeDefinition.ofNode_keeps (h : n.Relaxed n') :
    Keeps (OperationTypeDefinition.ofNode n) (OperationTypeDefinition.ofNode n') := by
  have operation : Keeps (n.withRequired .operationType fun c _ => OperationKind.ofNode c)
      (n'.withRequired .operationType fun c _ => OperationKind.ofNode c) :=
    h.withRequired fun _ _ _ => OperationKind.ofNode_keeps
  have type := NamedType.within_keeps h
  unfold OperationTypeDefinition.ofNode
  rw [h.span]
  exact operation.bind fun _ => type.bind fun _ => .rfl

theorem OperationTypeDefinition.allWithin_keeps (h : n.Relaxed n') :
    Keeps (OperationTypeDefinition.allWithin n) (OperationTypeDefinition.allWithin n') :=
  h.withEach fun _ _ _ => OperationTypeDefinition.ofNode_keeps

/-- A schema is kept with its directives and types of operations. -/
theorem SchemaDefinition.ofNode_keeps (h : n.Relaxed n') :
    Keeps (SchemaDefinition.ofNode n) (SchemaDefinition.ofNode n') := by
  have directives := Directive.attached_keeps h
  have types := OperationTypeDefinition.allWithin_keeps h
  unfold SchemaDefinition.ofNode
  rw [h.span]
  exact directives.bind fun _ => types.bind fun _ => .rfl

/-- And so is an extension of a schema. -/
theorem SchemaDefinition.extensionOfNode_keeps (h : n.Relaxed n') :
    Keeps (SchemaDefinition.extensionOfNode n) (SchemaDefinition.extensionOfNode n') := by
  have directives := Directive.attached_keeps h
  have types := listWithin_keeps h .operationTypeDefinitionList
    OperationTypeDefinition.allWithin_keeps
  unfold SchemaDefinition.extensionOfNode
  rw [h.span]
  exact directives.bind fun _ => types.bind fun _ => .rfl

/-! ## Types -/

/-- The directives and members of a type are kept, whatever the sort is. -/
theorem TypeShape.ofNode_keeps (h : n.Relaxed n') (sort : TypeSort) :
    Keeps (TypeShape.ofNode n sort) (TypeShape.ofNode n' sort) := by
  have directives := Directive.attached_keeps h
  -- the sorts differ in the lists of their members
  cases sort with
  | scalar => exact directives.bind fun _ => .rfl
  | object =>
    have interfaces := listWithin_keeps h .implementsInterfaces NamedType.allWithin_keeps
    have fields := listWithin_keeps h .fieldsDefinition FieldDefinition.allWithin_keeps
    exact interfaces.bind fun _ => directives.bind fun _ => fields.bind fun _ => .rfl
  | interface =>
    have fields := listWithin_keeps h .fieldsDefinition FieldDefinition.allWithin_keeps
    exact directives.bind fun _ => fields.bind fun _ => .rfl
  | union =>
    have types := listWithin_keeps h .unionMemberTypes NamedType.allWithin_keeps
    exact directives.bind fun _ => types.bind fun _ => .rfl
  | enum =>
    have values := listWithin_keeps h .enumValuesDefinition EnumValueDefinition.allWithin_keeps
    exact directives.bind fun _ => values.bind fun _ => .rfl
  | inputObject =>
    have inputs := listWithin_keeps h .inputFieldsDefinition InputValueDefinition.allWithin_keeps
    exact directives.bind fun _ => inputs.bind fun _ => .rfl

/-- A type definition is kept with its description, name, directives and members. -/
theorem TypeDefinition.ofNode_keeps (sort : TypeSort) (h : n.Relaxed n') :
    Keeps (TypeDefinition.ofNode sort n) (TypeDefinition.ofNode sort n') := by
  have description := StringValue.description_keeps h
  have shape := TypeShape.ofNode_keeps h sort
  unfold TypeDefinition.ofNode
  rw [h.span]
  exact description.bind fun _ => (Name.ofNode_keeps _ h).bind fun _ => shape.bind fun _ => .rfl

/-- A type extension is kept with its name, directives and members. -/
theorem TypeExtension.ofNode_keeps (sort : TypeSort) (h : n.Relaxed n') :
    Keeps (TypeExtension.ofNode sort n) (TypeExtension.ofNode sort n') := by
  have shape := TypeShape.ofNode_keeps h sort
  unfold TypeExtension.ofNode
  rw [h.span]
  exact (Name.ofNode_keeps _ h).bind fun _ => shape.bind fun _ => .rfl

/-! ## Directives -/

/-- The name of a location is kept, for no mark touches its token. -/
theorem locationName_keeps (h : n.Relaxed n') : Keeps (locationName n) (locationName n') := by
  unfold locationName
  rw [h.labelledTokens]
  split
  · exact .rfl
  · exact h.lack _

/-- A location is kept, of either kind. -/
theorem directiveLocation_keeps (h : n.Relaxed n') :
    Keeps (directiveLocation n) (directiveLocation n') := by
  refine h.withChosen fun c _ c' related => ?_
  rw [related.rule]
  split
  · exact .some (locationName_keeps related)
  · exact .some (locationName_keeps related)
  · exact .none

theorem directiveLocations_keeps (h : n.Relaxed n') :
    Keeps (directiveLocations n) (directiveLocations n') :=
  h.withPresent fun _ _ _ => directiveLocation_keeps

/-- A directive definition is kept with its parts. -/
theorem DirectiveDefinition.ofNode_keeps (h : n.Relaxed n') :
    Keeps (DirectiveDefinition.ofNode n) (DirectiveDefinition.ofNode n') := by
  have description := StringValue.description_keeps h
  have arguments := listWithin_keeps h .argumentsDefinition InputValueDefinition.allWithin_keeps
  have locations : Keeps (n.withRequired .directiveLocations fun c _ => directiveLocations c)
      (n'.withRequired .directiveLocations fun c _ => directiveLocations c) :=
    h.withRequired fun _ _ _ => directiveLocations_keeps
  unfold DirectiveDefinition.ofNode
  rw [h.span]
  exact description.bind fun _ => (Name.ofNode_keeps _ h).bind fun _ => arguments.bind fun _ =>
    locations.bind fun _ => .rfl

/-! ## Definitions -/

namespace Definition

/-- A type definition is kept whichever sort it is. -/
theorem typeOfNode_keeps (h : n.Relaxed n') : Keeps (typeOfNode n) (typeOfNode n') := by
  refine h.withChosen fun c _ c' related => ?_
  rw [related.rule]
  cases TypeSort.all.find? fun sort => sort.definitionRule == c.rule with
  | none => exact .none
  | some sort => exact .some ((TypeDefinition.ofNode_keeps sort related).map _)

/-- So is a type extension. -/
theorem typeExtensionOfNode_keeps (h : n.Relaxed n') :
    Keeps (typeExtensionOfNode n) (typeExtensionOfNode n') := by
  refine h.withChosen fun c _ c' related => ?_
  rw [related.rule]
  cases TypeSort.all.find? fun sort => sort.extensionRule == c.rule with
  | none => exact .none
  | some sort => exact .some ((TypeExtension.ofNode_keeps sort related).map _)

/-- An executable definition is kept whichever kind it is. -/
theorem executableOfNode_keeps (h : n.Relaxed n') :
    Keeps (executableOfNode n) (executableOfNode n') := by
  refine h.withChosen fun c _ c' related => ?_
  rw [related.rule]
  split
  · exact .some ((OperationDefinition.ofNode_keeps related).map _)
  · exact .some ((FragmentDefinition.ofNode_keeps related).map _)
  · exact .none

/-- So is a definition of the type system. -/
theorem typeSystemOfNode_keeps (h : n.Relaxed n') :
    Keeps (typeSystemOfNode n) (typeSystemOfNode n') := by
  refine h.withChosen fun c _ c' related => ?_
  rw [related.rule]
  split
  · exact .some ((SchemaDefinition.ofNode_keeps related).map _)
  · exact .some (typeOfNode_keeps related)
  · exact .some ((DirectiveDefinition.ofNode_keeps related).map _)
  · exact .none

/-- So is an extension. -/
theorem typeSystemExtensionOfNode_keeps (h : n.Relaxed n') :
    Keeps (typeSystemExtensionOfNode n) (typeSystemExtensionOfNode n') := by
  refine h.withChosen fun c _ c' related => ?_
  rw [related.rule]
  split
  · exact .some ((SchemaDefinition.extensionOfNode_keeps related).map _)
  · exact .some (typeExtensionOfNode_keeps related)
  · exact .none

/-- A definition is kept whichever kind it is. -/
theorem ofNode_keeps (h : n.Relaxed n') : Keeps (ofNode n) (ofNode n') := by
  refine h.withChosen fun c _ c' related => ?_
  rw [related.rule]
  split
  · exact .some (executableOfNode_keeps related)
  · exact .some (typeSystemOfNode_keeps related)
  · exact .some (typeSystemExtensionOfNode_keeps related)
  · exact .none

end Definition

/-! ## Documents -/

/-- A document is kept with its definitions. -/
theorem Document.ofNode_keeps (h : n.Relaxed n') :
    Keeps (Document.ofNode n) (Document.ofNode n') := by
  refine (h.withPresent fun _ _ _ => Definition.ofNode_keeps).bind fun _ => ?_
  rw [h.span]
  exact .rfl

/-- What could be made of a tree is made of the tree with more marks too. -/
theorem Document.ofTree_keeps (h : n.Relaxed n') :
    Keeps (Document.ofTree n) (Document.ofTree n') := by
  unfold Document.ofTree
  rw [h.rule]
  split
  · exact Document.ofNode_keeps h
  · exact .rfl

/-! ## Constructs -/

/-- What a node of any rule stands for, it stands for with more marks too. -/
theorem Construct.ofNode_keeps (h : n.Relaxed n') :
    Keeps (Construct.ofNode n) (Construct.ofNode n') := by
  unfold Construct.ofNode
  rw [h.rule]
  -- each rule has a maker of its own
  cases n.rule with
  | document => exact (Document.ofNode_keeps h).map _
  | definition => exact (Definition.ofNode_keeps h).map _
  | executableDefinition => exact (Definition.executableOfNode_keeps h).map _
  | typeSystemDefinition => exact (Definition.typeSystemOfNode_keeps h).map _
  | typeSystemExtension => exact (Definition.typeSystemExtensionOfNode_keeps h).map _
  | typeDefinition => exact (Definition.typeOfNode_keeps h).map _
  | typeExtension => exact (Definition.typeExtensionOfNode_keeps h).map _
  | operationDefinition => exact (OperationDefinition.ofNode_keeps h).map _
  | fragmentDefinition => exact (FragmentDefinition.ofNode_keeps h).map _
  | schemaDefinition => exact (SchemaDefinition.ofNode_keeps h).map _
  | schemaExtension => exact (SchemaDefinition.extensionOfNode_keeps h).map _
  | scalarTypeDefinition | objectTypeDefinition | interfaceTypeDefinition | unionTypeDefinition
  | enumTypeDefinition | inputObjectTypeDefinition => exact (TypeDefinition.ofNode_keeps _ h).map _
  | scalarTypeExtension | objectTypeExtension | interfaceTypeExtension | unionTypeExtension
  | enumTypeExtension | inputObjectTypeExtension => exact (TypeExtension.ofNode_keeps _ h).map _
  | directiveDefinition => exact (DirectiveDefinition.ofNode_keeps h).map _
  | operationType => exact (OperationKind.ofNode_keeps h).map _
  | selectionSet => exact (SelectionSet.ofNode_keeps n n' h).map _
  | selection => exact (Selection.ofNode_keeps n n' h).map _
  | field => exact (Field.ofNode_keeps n n' h).map _
  | fragmentSpread => exact (FragmentSpread.ofNode_keeps h).map _
  | inlineFragment => exact (InlineFragment.ofNode_keeps n n' h).map _
  | «alias» | fragmentName => exact (Name.ofNode_keeps _ h).map _
  | arguments => exact (Argument.allWithin_keeps h).map _
  | argument => exact (Argument.ofNode_keeps h).map _
  | typeCondition => exact (NamedType.within_keeps h).map _
  | namedType => exact (NamedType.ofNode_keeps h).map _
  | value => exact (Value.ofNode_keeps n n' h).map _
  | defaultValue => exact (Value.within_keeps h).map _
  | booleanValue => exact (Value.booleanOfNode_keeps h).map _
  | nullValue => exact (Value.nullOfNode_keeps h).map _
  | enumValue => exact (Value.enumOfNode_keeps h).map _
  | listValue => exact (Value.listOfNode_keeps n n' h).map _
  | objectValue => exact (Value.objectOfNode_keeps n n' h).map _
  | objectField => exact (ObjectField.ofNode_keeps n n' h).map _
  | «variable» => exact (Variable.ofNode_keeps h).map _
  | variableDefinitions => exact (VariableDefinition.allWithin_keeps h).map _
  | variableDefinition => exact (VariableDefinition.ofNode_keeps h).map _
  | type => exact (TypeReference.ofNode_keeps n n' h).map _
  | listType => exact (TypeReference.listOfNode_keeps n n' h).map _
  | directives => exact (Directive.allWithin_keeps h).map _
  | directive => exact (Directive.ofNode_keeps h).map _
  | operationTypeDefinitionList => exact (OperationTypeDefinition.allWithin_keeps h).map _
  | operationTypeDefinition => exact (OperationTypeDefinition.ofNode_keeps h).map _
  | description => exact (StringValue.describing_keeps h).map _
  | implementsInterfaces | unionMemberTypes => exact (NamedType.allWithin_keeps h).map _
  | fieldsDefinition => exact (FieldDefinition.allWithin_keeps h).map _
  | fieldDefinition => exact (FieldDefinition.ofNode_keeps h).map _
  | argumentsDefinition | inputFieldsDefinition =>
    exact (InputValueDefinition.allWithin_keeps h).map _
  | inputValueDefinition => exact (InputValueDefinition.ofNode_keeps h).map _
  | enumValuesDefinition => exact (EnumValueDefinition.allWithin_keeps h).map _
  | enumValueDefinition => exact (EnumValueDefinition.ofNode_keeps h).map _
  | directiveLocations => exact (directiveLocations_keeps h).map _
  | directiveLocation => exact (directiveLocation_keeps h).map _
  | executableDirectiveLocation | typeSystemDirectiveLocation => exact (locationName_keeps h).map _

end Makers

/-! ## Marks only excuse -/

/-- Take any tree, of whatever shape, and mark the nodes at any set of places as broken off.  What
    the tree stands for it still stands for, and what it is the document of it still is.  So a mark
    can excuse a gap, which is filled in or left out then, and do nothing else. -/
theorem marks_only_excuse (tree : Node) (places : Descent → Bool) :
    (∀ made, Construct.ofNode tree = .ok made →
      Construct.ofNode (tree.markedAt places) = .ok made) ∧
    ∀ document, Document.ofTree tree = .ok document →
      Document.ofTree (tree.markedAt places) = .ok document := by
  have relaxed := tree.relaxed_markedAt places
  exact ⟨Construct.ofNode_keeps relaxed, Document.ofTree_keeps relaxed⟩

/-- A directive with a name, or without one if there is no token, and with empty arguments. -/
def bareDirective (name : Option Token) : Node where
  rule := .directive
  groups := (name.toList.map fun t => (.token Category.name, [.token t]))
    ++ [(.rule .arguments, [.node ⟨.arguments, [], .nowhere, false⟩])]
  span := ⟨0, 2⟩
  recovered := false

/-- With the name the marks change nothing.  Without it they excuse the gap. -/
theorem marks_only_excuse_bareDirective :
    (∃ made, Construct.ofNode (bareDirective (some ⟨.identifier, "a", {}, false⟩)) = .ok made ∧
      Construct.ofNode ((bareDirective (some ⟨.identifier, "a", {}, false⟩)).markedAt
        fun place => place == [(1, 0)]) = .ok made) ∧
    Construct.ofNode (bareDirective none)
      = .error (.inconsistent .directive (.token Category.name)) ∧
    Construct.ofNode ((bareDirective none).markedAt fun place => place == [])
      = .ok (some (.directive ⟨.missing, [], ⟨0, 2⟩⟩)) :=
  ⟨⟨_, rfl, (marks_only_excuse _ fun place => place == [(1, 0)]).1 _ rfl⟩, rfl, rfl⟩

end GraphQL
