/-
  Places nest in whole documents.

  The makers of definitions are gone through as those of their parts were (`GraphQL.Proofs.Nesting`),
  up to one statement for all rules (`Construct.ofNode_nests`).  Together with what holds of the spans
  of a tree (`GraphQL.Proofs.Spans`) it says how all places that a reading gives lie to each other
  (`locations_nest`).
-/
import GraphQL.Proofs.BuildingDocument
import GraphQL.Proofs.Nesting

namespace GraphQL

section Makers

variable {n : Node}

/-! ## Operations and fragments -/

theorem givenDefault_nests (h : n.Encloses) : MadeInside n (givenDefault n) :=
  (h.withFirst fun _ _ => Value.within_nests).bind fun _ value => .pure value.join

/-- A variable definition has the place of its node, and its variable, type and default lie
    inside. -/
theorem VariableDefinition.ofNode_nests (h : n.Encloses) :
    MadeInside n (VariableDefinition.ofNode n) := by
  have declared : MadeInside n (n.withRequired .variable fun c _ => Variable.ofNode c) :=
    h.withRequired fun _ _ => Variable.ofNode_nests
  have type := TypeReference.within_nests h
  have default := givenDefault_nests h
  have missing : Nests n.span (⟨.missing, .nowhere⟩ : Variable) := NamedType.missing_nests
  exact declared.bind fun _ declares => type.bind fun _ typed => default.bind fun _ given =>
    .pure (Fit.whole (((declares.getD missing).append typed).append given))

theorem VariableDefinition.allWithin_nests (h : n.Encloses) :
    MadeInside n (VariableDefinition.allWithin n) := h.withEach fun _ _ => ofNode_nests

/-- An operation has the place of its node, and its name, variables, directives and selections lie
    inside. -/
theorem OperationDefinition.ofNode_nests (h : n.Encloses) :
    MadeInside n (OperationDefinition.ofNode n) := by
  have named : Nests n.span ((n.token? Category.name).map Name.ofToken) := by
    cases found : n.token? Category.name with
    | none => exact Fit.nil
    | some t => exact Name.ofToken_nests (h.bytes_token? found)
  have declared := listWithin_nests h .variableDefinitions VariableDefinition.allWithin_nests
  have directives := Directive.attached_nests h
  have selections := SelectionSet.within_nests h
  exact Ensures.any.bind fun _ _ => declared.bind fun _ declares =>
    directives.bind fun _ attached => selections.bind fun _ selected =>
      .pure (Fit.whole (((named.append declares).append attached).append selected))

/-- A fragment has the place of its node, and its name, variables, type condition, directives and
    selections lie inside. -/
theorem FragmentDefinition.ofNode_nests (h : n.Encloses) :
    MadeInside n (FragmentDefinition.ofNode n) := by
  have name := fragmentName_nests h
  have declared : MadeInside n
      (n.withFirst .variableDefinitions fun c _ => VariableDefinition.allWithin c) :=
    h.withFirst fun _ _ => VariableDefinition.allWithin_nests
  have condition : MadeInside n (n.withRequired .typeCondition fun c _ => NamedType.within c) :=
    h.withRequired fun _ _ => NamedType.within_nests
  have directives := Directive.attached_nests h
  have selections := SelectionSet.within_nests h
  refine name.bind fun _ named => declared.bind fun _ declares =>
    condition.bind fun typeCondition bound => directives.bind fun _ attached =>
    selections.bind fun _ selected => .pure ?_
  have type : Nests n.span (typeCondition.getD .missing) := bound.getD NamedType.missing_nests
  exact Fit.whole ((((named.append declares).append type).append attached).append selected)

/-! ## Parts of type definitions -/

/-- A description has the place of its token. -/
theorem StringValue.describing_nests (h : n.Encloses) :
    MadeInside n (StringValue.describing n) := by
  refine h.requireToken.bind fun token inside => .pure ?_
  cases token with
  | none => exact Fit.nil
  | some t => exact ofToken_nests (inside t rfl)

theorem StringValue.description_nests (h : n.Encloses) :
    MadeInside n (StringValue.description n) :=
  (h.withFirst fun _ _ => describing_nests).bind fun _ description => .pure description.join

/-- An input value has the place of its node, and its parts lie inside. -/
theorem InputValueDefinition.ofNode_nests (h : n.Encloses) :
    MadeInside n (InputValueDefinition.ofNode n) := by
  have description := StringValue.description_nests h
  have name := Name.ofNode_nests h Category.name
  have type := TypeReference.within_nests h
  have default := givenDefault_nests h
  have directives := Directive.attached_nests h
  exact description.bind fun _ described => name.bind fun _ named => type.bind fun _ typed =>
    default.bind fun _ given => directives.bind fun _ attached =>
      .pure (Fit.whole ((((described.append named).append typed).append given).append attached))

theorem InputValueDefinition.allWithin_nests (h : n.Encloses) :
    MadeInside n (InputValueDefinition.allWithin n) := h.withEach fun _ _ => ofNode_nests

/-- A field definition has the place of its node, and its parts lie inside. -/
theorem FieldDefinition.ofNode_nests (h : n.Encloses) :
    MadeInside n (FieldDefinition.ofNode n) := by
  have description := StringValue.description_nests h
  have name := Name.ofNode_nests h Category.name
  have arguments := listWithin_nests h .argumentsDefinition InputValueDefinition.allWithin_nests
  have type := TypeReference.within_nests h
  have directives := Directive.attached_nests h
  exact description.bind fun _ described => name.bind fun _ named => arguments.bind fun _ takes =>
    type.bind fun _ typed => directives.bind fun _ attached =>
      .pure (Fit.whole ((((described.append named).append takes).append typed).append attached))

theorem FieldDefinition.allWithin_nests (h : n.Encloses) :
    MadeInside n (FieldDefinition.allWithin n) := h.withEach fun _ _ => ofNode_nests

/-- An enumeration value has the place of its node, and its parts lie inside. -/
theorem EnumValueDefinition.ofNode_nests (h : n.Encloses) :
    MadeInside n (EnumValueDefinition.ofNode n) := by
  have name : MadeInside n
      (n.withRequired .enumValue fun c _ => Name.ofNode Category.nameButLiteral c) :=
    h.withRequired fun _ _ below => Name.ofNode_nests below Category.nameButLiteral
  have description := StringValue.description_nests h
  have directives := Directive.attached_nests h
  exact name.bind fun _ named => description.bind fun _ described =>
    directives.bind fun _ attached =>
      .pure (Fit.whole ((described.append (named.getD Name.missing_nests)).append attached))

theorem EnumValueDefinition.allWithin_nests (h : n.Encloses) :
    MadeInside n (EnumValueDefinition.allWithin n) := h.withEach fun _ _ => ofNode_nests

/-! ## Schemas -/

theorem OperationTypeDefinition.ofNode_nests (h : n.Encloses) :
    MadeInside n (OperationTypeDefinition.ofNode n) :=
  Ensures.any.bind fun _ _ => (NamedType.within_nests h).bind fun _ type => .pure (Fit.whole type)

theorem OperationTypeDefinition.allWithin_nests (h : n.Encloses) :
    MadeInside n (OperationTypeDefinition.allWithin n) := h.withEach fun _ _ => ofNode_nests

/-- A schema has the place of its node, and its directives and types of operations lie inside. -/
theorem SchemaDefinition.ofNode_nests (h : n.Encloses) :
    MadeInside n (SchemaDefinition.ofNode n) := by
  have directives := Directive.attached_nests h
  have types := OperationTypeDefinition.allWithin_nests h
  exact directives.bind fun _ attached => types.bind fun _ members =>
    .pure (Fit.whole (attached.append members))

/-- And so it is with an extension of a schema. -/
theorem SchemaDefinition.extensionOfNode_nests (h : n.Encloses) :
    MadeInside n (SchemaDefinition.extensionOfNode n) := by
  have directives := Directive.attached_nests h
  have types :=
    listWithin_nests h .operationTypeDefinitionList OperationTypeDefinition.allWithin_nests
  exact directives.bind fun _ attached => types.bind fun _ members =>
    .pure (Fit.whole (attached.append members))

/-! ## Types -/

/-- The directives and members of a type lie inside its node, whatever the sort is. -/
theorem TypeShape.ofNode_nests (h : n.Encloses) (sort : TypeSort) :
    MadeInside n (TypeShape.ofNode n sort) := by
  have directives := Directive.attached_nests h
  -- the sorts differ in the lists of their members
  cases sort with
  | scalar => exact directives.bind fun _ attached => .pure (attached.append Fit.nil)
  | object =>
    have interfaces := listWithin_nests h .implementsInterfaces NamedType.allWithin_nests
    have fields := listWithin_nests h .fieldsDefinition FieldDefinition.allWithin_nests
    exact interfaces.bind fun _ implemented => directives.bind fun _ attached =>
      fields.bind fun _ members => .pure (attached.append (implemented.append members))
  | interface =>
    have fields := listWithin_nests h .fieldsDefinition FieldDefinition.allWithin_nests
    exact directives.bind fun _ attached => fields.bind fun _ members =>
      .pure (attached.append members)
  | union =>
    have types := listWithin_nests h .unionMemberTypes NamedType.allWithin_nests
    exact directives.bind fun _ attached => types.bind fun _ members =>
      .pure (attached.append members)
  | enum =>
    have values := listWithin_nests h .enumValuesDefinition EnumValueDefinition.allWithin_nests
    exact directives.bind fun _ attached => values.bind fun _ members =>
      .pure (attached.append members)
  | inputObject =>
    have inputs := listWithin_nests h .inputFieldsDefinition InputValueDefinition.allWithin_nests
    exact directives.bind fun _ attached => inputs.bind fun _ members =>
      .pure (attached.append members)

/-- A type definition has the place of its node, and its description, name, directives and members
    lie inside. -/
theorem TypeDefinition.ofNode_nests (h : n.Encloses) (sort : TypeSort) :
    MadeInside n (TypeDefinition.ofNode sort n) := by
  have description := StringValue.description_nests h
  have name := Name.ofNode_nests h Category.name
  have shape := TypeShape.ofNode_nests h sort
  exact description.bind fun _ described => name.bind fun _ named => shape.bind fun _ nests =>
    .pure (Fit.whole (((described.append named).append nests.left).append nests.right))

/-- A type extension has the place of its node, and its name, directives and members lie inside. -/
theorem TypeExtension.ofNode_nests (h : n.Encloses) (sort : TypeSort) :
    MadeInside n (TypeExtension.ofNode sort n) := by
  have name := Name.ofNode_nests h Category.name
  have shape := TypeShape.ofNode_nests h sort
  exact name.bind fun _ named => shape.bind fun _ nests =>
    .pure (Fit.whole ((named.append nests.left).append nests.right))

/-! ## Directives -/

/-- The name of a location has the place of its token. -/
theorem locationName_nests (h : n.Encloses) : MadeInside n (locationName n) := by
  unfold locationName
  split
  · rename_i t found
    exact .pure (Name.ofToken_nests (h.bytes_token (List.mem_of_head? found)))
  · exact Node.Encloses.lack _

/-- A location has the place of the child that it is made of. -/
theorem directiveLocation_nests (h : n.Encloses) : MadeInside n (directiveLocation n) := by
  refine h.withChosen fun c _ below result chosen => ?_
  split at chosen
  · cases chosen
    exact locationName_nests below
  · cases chosen
    exact locationName_nests below
  · cases chosen

theorem directiveLocations_nests (h : n.Encloses) : MadeInside n (directiveLocations n) :=
  h.withPresent fun _ _ => directiveLocation_nests

/-- A directive definition has the place of its node, and its parts lie inside. -/
theorem DirectiveDefinition.ofNode_nests (h : n.Encloses) :
    MadeInside n (DirectiveDefinition.ofNode n) := by
  have description := StringValue.description_nests h
  have name := Name.ofNode_nests h Category.name
  have arguments := listWithin_nests h .argumentsDefinition InputValueDefinition.allWithin_nests
  have locations : MadeInside n
      (n.withRequired .directiveLocations fun c _ => directiveLocations c) :=
    h.withRequired fun _ _ => directiveLocations_nests
  exact description.bind fun _ described => name.bind fun _ named => arguments.bind fun _ takes =>
    locations.bind fun _ places =>
      .pure (Fit.whole (((described.append named).append takes).append (places.getD Fit.nil)))

/-! ## Definitions -/

namespace Definition

theorem typeOfNode_nests (h : n.Encloses) : MadeInside n (typeOfNode n) := by
  refine h.withChosen fun c _ below result chosen => ?_
  obtain ⟨sort, -, rfl⟩ := Option.map_eq_some_iff.mp chosen
  exact (TypeDefinition.ofNode_nests below sort).map fun _ => id

theorem typeExtensionOfNode_nests (h : n.Encloses) : MadeInside n (typeExtensionOfNode n) := by
  refine h.withChosen fun c _ below result chosen => ?_
  obtain ⟨sort, -, rfl⟩ := Option.map_eq_some_iff.mp chosen
  exact (TypeExtension.ofNode_nests below sort).map fun _ => id

/-- An executable definition lies inside the child that it is made of. -/
theorem executableOfNode_nests (h : n.Encloses) : MadeInside n (executableOfNode n) := by
  refine h.withChosen fun c _ below result chosen => ?_
  split at chosen
  · cases chosen
    exact (OperationDefinition.ofNode_nests below).map fun _ => id
  · cases chosen
    exact (FragmentDefinition.ofNode_nests below).map fun _ => id
  · cases chosen

/-- So does a definition of the type system. -/
theorem typeSystemOfNode_nests (h : n.Encloses) : MadeInside n (typeSystemOfNode n) := by
  refine h.withChosen fun c _ below result chosen => ?_
  split at chosen
  · cases chosen
    exact (SchemaDefinition.ofNode_nests below).map fun _ => id
  · cases chosen
    exact typeOfNode_nests below
  · cases chosen
    exact (DirectiveDefinition.ofNode_nests below).map fun _ => id
  · cases chosen

/-- So does an extension. -/
theorem typeSystemExtensionOfNode_nests (h : n.Encloses) :
    MadeInside n (typeSystemExtensionOfNode n) := by
  refine h.withChosen fun c _ below result chosen => ?_
  split at chosen
  · cases chosen
    exact (SchemaDefinition.extensionOfNode_nests below).map fun _ => id
  · cases chosen
    exact typeExtensionOfNode_nests below
  · cases chosen

/-- A definition lies inside its node, whichever kind it is. -/
theorem ofNode_nests (h : n.Encloses) : MadeInside n (ofNode n) := by
  refine h.withChosen fun c _ below result chosen => ?_
  split at chosen
  · cases chosen
    exact executableOfNode_nests below
  · cases chosen
    exact typeSystemOfNode_nests below
  · cases chosen
    exact typeSystemExtensionOfNode_nests below
  · cases chosen

end Definition

theorem Document.ofNode_nests (h : n.Encloses) : MadeInside n (Document.ofNode n) :=
  (h.withPresent fun _ _ => Definition.ofNode_nests).bind fun _ definitions =>
    .pure (Fit.whole definitions)

/-! ## Constructs -/

namespace Construct

/-- A construct lies where what it wraps lies. -/
theorem made_nests {α : Type} [HasExtents α] {f : α → Construct} {result : Build α}
    (h : MadeInside n result) (same : ∀ a, extents (f a) = extents a) :
    MadeInside n (made f result) := by
  refine h.map fun a nests => ?_
  show Fit n.span (extents (f a))
  rw [same a]
  exact nests

/-- The same, for what may be lacking. -/
theorem chosen_nests {α : Type} [HasExtents α] {f : α → Construct} {result : Build (Option α)}
    (h : MadeInside n result) (same : ∀ a, extents (f a) = extents a) :
    MadeInside n (chosen f result) := by
  refine h.map fun o nests => ?_
  cases o with
  | none => exact Fit.nil
  | some a =>
    show Fit n.span (extents (f a))
    rw [same a]
    exact nests

/-- Whatever a node stands for lies inside the node with all its parts, and they are nested. -/
theorem ofNode_nests (h : n.Encloses) : MadeInside n (ofNode n) := by
  unfold ofNode
  -- each rule has a maker of its own
  cases n.rule with
  | document => exact made_nests (Document.ofNode_nests h) fun _ => rfl
  | definition => exact chosen_nests (Definition.ofNode_nests h) fun _ => rfl
  | executableDefinition => exact chosen_nests (Definition.executableOfNode_nests h) fun _ => rfl
  | typeSystemDefinition => exact chosen_nests (Definition.typeSystemOfNode_nests h) fun _ => rfl
  | typeSystemExtension =>
    exact chosen_nests (Definition.typeSystemExtensionOfNode_nests h) fun _ => rfl
  | typeDefinition => exact chosen_nests (Definition.typeOfNode_nests h) fun _ => rfl
  | typeExtension => exact chosen_nests (Definition.typeExtensionOfNode_nests h) fun _ => rfl
  | operationDefinition => exact made_nests (OperationDefinition.ofNode_nests h) fun _ => rfl
  | fragmentDefinition => exact made_nests (FragmentDefinition.ofNode_nests h) fun _ => rfl
  | schemaDefinition => exact made_nests (SchemaDefinition.ofNode_nests h) fun _ => rfl
  | schemaExtension => exact made_nests (SchemaDefinition.extensionOfNode_nests h) fun _ => rfl
  | scalarTypeDefinition => exact made_nests (TypeDefinition.ofNode_nests h .scalar) fun _ => rfl
  | objectTypeDefinition => exact made_nests (TypeDefinition.ofNode_nests h .object) fun _ => rfl
  | interfaceTypeDefinition =>
    exact made_nests (TypeDefinition.ofNode_nests h .interface) fun _ => rfl
  | unionTypeDefinition => exact made_nests (TypeDefinition.ofNode_nests h .union) fun _ => rfl
  | enumTypeDefinition => exact made_nests (TypeDefinition.ofNode_nests h .enum) fun _ => rfl
  | inputObjectTypeDefinition =>
    exact made_nests (TypeDefinition.ofNode_nests h .inputObject) fun _ => rfl
  | directiveDefinition => exact made_nests (DirectiveDefinition.ofNode_nests h) fun _ => rfl
  | scalarTypeExtension => exact made_nests (TypeExtension.ofNode_nests h .scalar) fun _ => rfl
  | objectTypeExtension => exact made_nests (TypeExtension.ofNode_nests h .object) fun _ => rfl
  | interfaceTypeExtension =>
    exact made_nests (TypeExtension.ofNode_nests h .interface) fun _ => rfl
  | unionTypeExtension => exact made_nests (TypeExtension.ofNode_nests h .union) fun _ => rfl
  | enumTypeExtension => exact made_nests (TypeExtension.ofNode_nests h .enum) fun _ => rfl
  | inputObjectTypeExtension =>
    exact made_nests (TypeExtension.ofNode_nests h .inputObject) fun _ => rfl
  | operationType => exact Ensures.any.map fun _ _ => Fit.nil
  | selectionSet => exact made_nests (SelectionSet.ofNode_nests n h) fun _ => rfl
  | selection => exact chosen_nests (Selection.ofNode_nests n h) fun _ => rfl
  | field => exact made_nests (Field.ofNode_nests n h) fun _ => rfl
  | fragmentSpread => exact made_nests (FragmentSpread.ofNode_nests h) fun _ => rfl
  | inlineFragment => exact made_nests (InlineFragment.ofNode_nests n h) fun _ => rfl
  | «alias» => exact made_nests (Name.ofNode_nests h _) fun _ => rfl
  | fragmentName => exact made_nests (Name.ofNode_nests h _) fun _ => rfl
  | arguments => exact made_nests (Argument.allWithin_nests h) fun _ => rfl
  | argument => exact made_nests (Argument.ofNode_nests h) fun _ => rfl
  | typeCondition => exact made_nests (NamedType.within_nests h) fun _ => rfl
  | namedType => exact made_nests (NamedType.ofNode_nests h) fun _ => rfl
  | value => exact chosen_nests (Value.ofNode_nests n h) fun _ => rfl
  | defaultValue => exact chosen_nests (Value.within_nests h) fun _ => rfl
  | booleanValue => exact chosen_nests (Value.booleanOfNode_nests) fun _ => rfl
  | nullValue => exact made_nests (Value.nullOfNode_nests) fun _ => rfl
  | enumValue => exact chosen_nests (Value.enumOfNode_nests h) fun _ => rfl
  | listValue => exact made_nests (Value.listOfNode_nests n h) fun _ => rfl
  | objectValue => exact made_nests (Value.objectOfNode_nests n h) fun _ => rfl
  | objectField => exact made_nests (ObjectField.ofNode_nests n h) fun _ => rfl
  | «variable» => exact made_nests (Variable.ofNode_nests h) fun _ => rfl
  | variableDefinitions => exact made_nests (VariableDefinition.allWithin_nests h) fun _ => rfl
  | variableDefinition => exact made_nests (VariableDefinition.ofNode_nests h) fun _ => rfl
  | type => exact made_nests (TypeReference.ofNode_nests n h) fun _ => rfl
  | listType => exact made_nests (TypeReference.listOfNode_nests n h) fun _ => rfl
  | directives => exact made_nests (Directive.allWithin_nests h) fun _ => rfl
  | directive => exact made_nests (Directive.ofNode_nests h) fun _ => rfl
  | operationTypeDefinitionList =>
    exact made_nests (OperationTypeDefinition.allWithin_nests h) fun _ => rfl
  | operationTypeDefinition =>
    exact made_nests (OperationTypeDefinition.ofNode_nests h) fun _ => rfl
  | description => exact chosen_nests (StringValue.describing_nests h) fun _ => rfl
  | implementsInterfaces => exact made_nests (NamedType.allWithin_nests h) fun _ => rfl
  | unionMemberTypes => exact made_nests (NamedType.allWithin_nests h) fun _ => rfl
  | fieldsDefinition => exact made_nests (FieldDefinition.allWithin_nests h) fun _ => rfl
  | fieldDefinition => exact made_nests (FieldDefinition.ofNode_nests h) fun _ => rfl
  | argumentsDefinition => exact made_nests (InputValueDefinition.allWithin_nests h) fun _ => rfl
  | inputFieldsDefinition => exact made_nests (InputValueDefinition.allWithin_nests h) fun _ => rfl
  | inputValueDefinition => exact made_nests (InputValueDefinition.ofNode_nests h) fun _ => rfl
  | enumValuesDefinition => exact made_nests (EnumValueDefinition.allWithin_nests h) fun _ => rfl
  | enumValueDefinition => exact made_nests (EnumValueDefinition.ofNode_nests h) fun _ => rfl
  | directiveLocations => exact made_nests (directiveLocations_nests h) fun _ => rfl
  | directiveLocation => exact chosen_nests (directiveLocation_nests h) fun _ => rfl
  | executableDirectiveLocation => exact chosen_nests (locationName_nests h) fun _ => rfl
  | typeSystemDirectiveLocation => exact chosen_nests (locationName_nests h) fun _ => rfl

end Construct

end Makers

/-- What a tree of a document stands for is its document. -/
theorem Construct.ofNode_of_ofTree {tree : Node} {d : Document} (h : Document.ofTree tree = .ok d) :
    Construct.ofNode tree = .ok (some (.document d)) := by
  unfold Document.ofTree at h
  split at h
  · rename_i rule
    rw [Construct.ofNode, rule, Construct.made, h]
    rfl
  · cases h

/-! ## Whole inputs -/

/-- Locations nest.  Take any text that is short enough for places of 32 bits, valid or broken, and
    read it as any rule.  A node of the tree has no place just if no token of the text stands below
    it, and else its span goes from the start of the first of them to the end of the last.  What it
    holds has no bytes in common, and under one label stands one ahead of the next.  And in what the
    tree stands for, each place lies inside the places of all that it is part of, which are then
    places too; for the rule of documents that is the document. -/
theorem locations_nest {g : Grammar} (standard : Standard.grammar? = .ok g) (source : String)
    (file : Option String) (short : source.utf8ByteSize < ByteSpan.wordLimit - 1) (entry : Rule) :
    ∃ tree made, (g.readSource source file entry).tree = some tree ∧
      Construct.ofNode tree = .ok made ∧
      (∀ n : Node, n.Within tree →
        (n.span.isPlace = false ↔ standing n.leaves = []) ∧
        (∃ ts, ts.Sublist (Scan.ofSource source file).tokens ∧ ts.Perm (standing n.leaves) ∧
          n.span = ByteSpan.around ts) ∧
        ((n.groups.flatMap (·.2)).map Element.bytes).Pairwise ByteSpan.Apart ∧
        ∀ label es, (label, es) ∈ n.groups → (es.map Element.bytes).Pairwise ByteSpan.Ahead) ∧
      (∀ whole ∈ extents made, whole.Nested) ∧
      (entry = .document → ∃ d, Document.ofTree tree = .ok d ∧ made = some (.document d)) := by
  obtain rfl : Standard.grammar = g := Except.ok.inj (Standard.grammar?_eq.symm.trans standard)
  obtain ⟨tree, kept, htree, spreads, among⟩ :=
    exists_spreads Standard.finish_eq Standard.reserved entry (Scan.ofSource source file).tokens
  obtain ⟨tree', htree', rule, conforms⟩ :=
    exists_conforming_tree Standard.finish_eq entry (Scan.ofSource source file).tokens
  obtain rfl : tree = tree' := Option.some.inj (htree.symm.trans htree')
  have reads : Reads entry tree := ⟨rule, conforms⟩
  have lined : Lined kept := (lined_ofSource file short).sublist among
  obtain ⟨made, hmade⟩ := Construct.ofNode_succeeds reads
  have nests : Nests tree.span made := Construct.ofNode_nests (spreads.encloses lined) made hmade
  refine ⟨tree, made, (tree_readSource ..).trans htree, hmade, fun n within => ?_,
    fun whole hwhole => (nests whole hwhole).1, ?_⟩
  · -- the spans of the tree
    obtain ⟨ts, sub, below⟩ := spreads.within within
    have lined : Lined ts := lined.sublist sub
    exact ⟨below.isPlace_span lined, ⟨ts, sub.trans among, below.perm_leaves, below.span lined⟩,
      below.pairwise_apart lined, fun label es => below.pairwise_ahead lined⟩
  · -- the document is what the root stands for
    rintro rfl
    obtain ⟨d, hd⟩ := Document.ofTree_succeeds reads
    refine ⟨d, hd, Except.ok.inj (hmade.symm.trans (Construct.ofNode_of_ofTree hd))⟩

/-- An argument without its value, between other things. -/
def hollowSource : String := "\x7b a(b: ) c \x7d"

/-- The way to the value that is lacking. -/
def hollowPath : List Rule :=
  [.definition, .executableDefinition, .operationDefinition, .selectionSet, .selection, .field,
    .arguments, .argument, .value]

set_option maxRecDepth 100000 in
/-- The node of a value that is lacking has no place, and the whole tree goes from the first brace
    to the last. -/
theorem locations_nest_hollow :
    hollowSource.utf8ByteSize < ByteSpan.wordLimit - 1 ∧
      ∃ tree made, (Standard.grammar.readSource hollowSource).tree = some tree ∧
        Construct.ofNode tree = .ok made ∧ tree.span = ⟨0, 12⟩ ∧
        (∃ n : Node, n.Within tree ∧ n.span.isPlace = false ∧ standing n.leaves = []) ∧
        ∀ whole ∈ extents made, whole.Nested := by
  have short : hollowSource.utf8ByteSize < ByteSpan.wordLimit - 1 := by decide +kernel
  obtain ⟨tree, made, htree, hmade, places, nested, -⟩ :=
    locations_nest Standard.grammar?_eq hollowSource none short .document
  have shape : (Standard.grammar.readSource hollowSource).tree.map (fun tree =>
      (tree.span, (hollowPath.foldlM Node.node? tree).map fun n => n.span.isPlace))
        = some (⟨0, 12⟩, some false) := by
    decide +kernel
  rw [htree] at shape
  obtain ⟨span, lost⟩ := Prod.mk.inj (Option.some.inj shape)
  obtain ⟨n, path, nowhere⟩ := Option.map_eq_some_iff.mp lost
  have within : n.Within tree := Node.within_of_path hollowPath path
  exact ⟨short, tree, made, htree, hmade, span,
    ⟨n, within, nowhere, (places n within).1.mp nowhere⟩, nested⟩

end GraphQL
