/-
  Every parse of the standard grammar is a document.

  The makers of definitions are gone through as those of their parts were.  In the end there is one
  statement for all rules (`Construct.ofNode_succeeds`), and with the conforming tree that each parse
  gives (`exists_conforming_tree`) nothing is left to fail: whatever the tokens are, the tree can be
  made into what it stands for.
-/
import GraphQL.Document.OfTree.Definition
import GraphQL.Proofs.Building
import GraphQL.Reading

namespace GraphQL

variable {r : Rule} {n : Node}

/-! ## Operations and fragments -/

/-- The kind of an operation is made, for its production has one of the three words in every
    match. -/
theorem OperationKind.ofNode_succeeds (h : Reads .operationType n) :
    Succeeds (OperationKind.ofNode n) := by
  unfold OperationKind.ofNode
  split
  · -- a query
    exact .pure _
  · rename_i noQuery
    split
    · -- a mutation
      exact .pure _
    · rename_i noMutation
      split
      · -- a subscription
        exact .pure _
      · -- none of the three words, so the node was given up
        rename_i noSubscription
        refine .bind (succeeds_lack fun whole => ?_) fun _ => .pure _
        have sure : (Standard.production .operationType).surely
            ([.token Word.query, .token Word.mutation, .token Word.subscription].contains ·)
              = true := rfl
        obtain ⟨label, has, hl⟩ := h.has whole sure
        have hl := List.contains_iff_mem.mp hl
        simp only [List.mem_cons, List.not_mem_nil, or_false] at hl
        rcases hl with rfl | rfl | rfl
        · exact noQuery has
        · exact noMutation has
        · exact noSubscription has

theorem givenDefault_succeeds (h : Reads r n) : Succeeds (givenDefault n) :=
  .bind (h.withFirst fun _ _ (reads : Reads .defaultValue _) => Value.within_succeeds reads rfl)
    fun _ => .pure _

/-- A variable definition is made, for its production has a variable and a type in every match. -/
theorem VariableDefinition.ofNode_succeeds (h : Reads .variableDefinition n) :
    Succeeds (VariableDefinition.ofNode n) := by
  have declared : Succeeds (n.withRequired .variable fun c _ => Variable.ofNode c) :=
    h.withRequired rfl fun _ _ => Variable.ofNode_succeeds
  have type := TypeReference.within_succeeds h rfl
  have default := givenDefault_succeeds h
  exact .bind declared fun _ => .bind type fun _ => .bind default fun _ => .pure _

theorem VariableDefinition.allWithin_succeeds (h : Reads r n) :
    Succeeds (VariableDefinition.allWithin n) :=
  h.withEach fun _ _ => VariableDefinition.ofNode_succeeds

/-- An operation is made, for its production has a selection set in every match. -/
theorem OperationDefinition.ofNode_succeeds (h : Reads .operationDefinition n) :
    Succeeds (OperationDefinition.ofNode n) := by
  have operation : Succeeds (n.withFirst .operationType fun c _ => OperationKind.ofNode c) :=
    h.withFirst fun _ _ => OperationKind.ofNode_succeeds
  have declared : Succeeds (listWithin n .variableDefinitions VariableDefinition.allWithin) :=
    listWithin_succeeds h fun _ => VariableDefinition.allWithin_succeeds
  have directives := Directive.attached_succeeds h
  have selections := SelectionSet.within_succeeds h rfl
  exact .bind operation fun _ => .bind declared fun _ => .bind directives fun _ =>
    .bind selections fun _ => .pure _

/-- A fragment is made, for its production has a name, a type condition and a selection set in every
    match. -/
theorem FragmentDefinition.ofNode_succeeds (h : Reads .fragmentDefinition n) :
    Succeeds (FragmentDefinition.ofNode n) := by
  have name := fragmentName_succeeds h rfl
  have declared : Succeeds
      (n.withFirst .variableDefinitions fun c _ => VariableDefinition.allWithin c) :=
    h.withFirst fun _ _ => VariableDefinition.allWithin_succeeds
  have condition : Succeeds (n.withRequired .typeCondition fun c _ => NamedType.within c) :=
    h.withRequired rfl fun _ _ reads => NamedType.within_succeeds reads rfl
  have directives := Directive.attached_succeeds h
  have selections := SelectionSet.within_succeeds h rfl
  exact .bind name fun _ => .bind declared fun _ => .bind condition fun _ =>
    .bind directives fun _ => .bind selections fun _ => .pure _

/-! ## Parts of type definitions -/

theorem StringValue.describing_succeeds (h : Reads .description n) :
    Succeeds (StringValue.describing n) :=
  .bind (h.requireToken rfl) fun _ => .pure _

theorem StringValue.description_succeeds (h : Reads r n) : Succeeds (StringValue.description n) :=
  .bind (h.withFirst fun _ _ => StringValue.describing_succeeds) fun _ => .pure _

/-- An input value is made, for its production has a name and a type in every match. -/
theorem InputValueDefinition.ofNode_succeeds (h : Reads .inputValueDefinition n) :
    Succeeds (InputValueDefinition.ofNode n) := by
  have description := StringValue.description_succeeds h
  have name : Succeeds (Name.ofNode Category.name n) := Name.ofNode_succeeds h rfl
  have type := TypeReference.within_succeeds h rfl
  have default := givenDefault_succeeds h
  have directives := Directive.attached_succeeds h
  exact .bind description fun _ => .bind name fun _ => .bind type fun _ =>
    .bind default fun _ => .bind directives fun _ => .pure _

theorem InputValueDefinition.allWithin_succeeds (h : Reads r n) :
    Succeeds (InputValueDefinition.allWithin n) :=
  h.withEach fun _ _ => InputValueDefinition.ofNode_succeeds

/-- A field definition is made, for its production has a name and a type in every match. -/
theorem FieldDefinition.ofNode_succeeds (h : Reads .fieldDefinition n) :
    Succeeds (FieldDefinition.ofNode n) := by
  have description := StringValue.description_succeeds h
  have name : Succeeds (Name.ofNode Category.name n) := Name.ofNode_succeeds h rfl
  have arguments : Succeeds (listWithin n .argumentsDefinition InputValueDefinition.allWithin) :=
    listWithin_succeeds h fun _ => InputValueDefinition.allWithin_succeeds
  have type := TypeReference.within_succeeds h rfl
  have directives := Directive.attached_succeeds h
  exact .bind description fun _ => .bind name fun _ => .bind arguments fun _ =>
    .bind type fun _ => .bind directives fun _ => .pure _

theorem FieldDefinition.allWithin_succeeds (h : Reads r n) :
    Succeeds (FieldDefinition.allWithin n) :=
  h.withEach fun _ _ => FieldDefinition.ofNode_succeeds

/-- An enumeration value is made, for its production has one in every match. -/
theorem EnumValueDefinition.ofNode_succeeds (h : Reads .enumValueDefinition n) :
    Succeeds (EnumValueDefinition.ofNode n) := by
  have name : Succeeds
      (n.withRequired .enumValue fun c _ => Name.ofNode Category.nameButLiteral c) :=
    h.withRequired rfl fun _ _ reads => Name.ofNode_succeeds reads rfl
  have description := StringValue.description_succeeds h
  have directives := Directive.attached_succeeds h
  exact .bind name fun _ => .bind description fun _ => .bind directives fun _ => .pure _

theorem EnumValueDefinition.allWithin_succeeds (h : Reads r n) :
    Succeeds (EnumValueDefinition.allWithin n) :=
  h.withEach fun _ _ => EnumValueDefinition.ofNode_succeeds

/-! ## Schemas -/

/-- The type of an operation is made, for its production has the kind and a named type in every
    match. -/
theorem OperationTypeDefinition.ofNode_succeeds (h : Reads .operationTypeDefinition n) :
    Succeeds (OperationTypeDefinition.ofNode n) := by
  have operation : Succeeds (n.withRequired .operationType fun c _ => OperationKind.ofNode c) :=
    h.withRequired rfl fun _ _ => OperationKind.ofNode_succeeds
  have type := NamedType.within_succeeds h rfl
  exact .bind operation fun _ => .bind type fun _ => .pure _

theorem OperationTypeDefinition.allWithin_succeeds (h : Reads r n) :
    Succeeds (OperationTypeDefinition.allWithin n) :=
  h.withEach fun _ _ => OperationTypeDefinition.ofNode_succeeds

/-- A schema is made of lists, which may be empty. -/
theorem SchemaDefinition.ofNode_succeeds (h : Reads r n) :
    Succeeds (SchemaDefinition.ofNode n) := by
  have directives := Directive.attached_succeeds h
  have operations := OperationTypeDefinition.allWithin_succeeds h
  exact .bind directives fun _ => .bind operations fun _ => .pure _

/-- And so is an extension of a schema. -/
theorem SchemaDefinition.extensionOfNode_succeeds (h : Reads r n) :
    Succeeds (SchemaDefinition.extensionOfNode n) := by
  have directives := Directive.attached_succeeds h
  have operations : Succeeds
      (listWithin n .operationTypeDefinitionList OperationTypeDefinition.allWithin) :=
    listWithin_succeeds h fun _ => OperationTypeDefinition.allWithin_succeeds
  exact .bind directives fun _ => .bind operations fun _ => .pure _

/-! ## Types -/

/-- The directives and members of a type are lists below its node, which may be lacking, whatever
    the sort is. -/
theorem TypeShape.ofNode_succeeds (h : Reads r n) (sort : TypeSort) :
    Succeeds (TypeShape.ofNode n sort) := by
  have directives := Directive.attached_succeeds h
  have fields : Succeeds (listWithin n .fieldsDefinition FieldDefinition.allWithin) :=
    listWithin_succeeds h fun _ => FieldDefinition.allWithin_succeeds
  -- the sorts differ in the list of their members only
  cases sort with
  | scalar => exact .bind directives fun _ => .pure _
  | object =>
    have interfaces : Succeeds (listWithin n .implementsInterfaces NamedType.allWithin) :=
      listWithin_succeeds h fun _ => NamedType.allWithin_succeeds
    exact .bind interfaces fun _ => .bind directives fun _ => .bind fields fun _ => .pure _
  | interface => exact .bind directives fun _ => .bind fields fun _ => .pure _
  | union =>
    have types : Succeeds (listWithin n .unionMemberTypes NamedType.allWithin) :=
      listWithin_succeeds h fun _ => NamedType.allWithin_succeeds
    exact .bind directives fun _ => .bind types fun _ => .pure _
  | enum =>
    have values : Succeeds (listWithin n .enumValuesDefinition EnumValueDefinition.allWithin) :=
      listWithin_succeeds h fun _ => EnumValueDefinition.allWithin_succeeds
    exact .bind directives fun _ => .bind values fun _ => .pure _
  | inputObject =>
    have inputs : Succeeds (listWithin n .inputFieldsDefinition InputValueDefinition.allWithin) :=
      listWithin_succeeds h fun _ => InputValueDefinition.allWithin_succeeds
    exact .bind directives fun _ => .bind inputs fun _ => .pure _

/-- A type definition is made, for the production of each sort has a name in every match. -/
theorem TypeDefinition.ofNode_succeeds (sort : TypeSort) (h : Reads sort.definitionRule n) :
    Succeeds (TypeDefinition.ofNode sort n) := by
  have description := StringValue.description_succeeds h
  have name : Succeeds (Name.ofNode Category.name n) :=
    Name.ofNode_succeeds h (by cases sort <;> rfl)
  have shape := TypeShape.ofNode_succeeds h sort
  exact .bind description fun _ => .bind name fun _ => .bind shape fun _ => .pure _

/-- And so is a type extension. -/
theorem TypeExtension.ofNode_succeeds (sort : TypeSort) (h : Reads sort.extensionRule n) :
    Succeeds (TypeExtension.ofNode sort n) := by
  have name : Succeeds (Name.ofNode Category.name n) :=
    Name.ofNode_succeeds h (by cases sort <;> rfl)
  have shape := TypeShape.ofNode_succeeds h sort
  exact .bind name fun _ => .bind shape fun _ => .pure _

/-! ## Directives -/

/-- The name of a location is made of the first token, and there is one where the production has
    some token in every match. -/
theorem locationName_succeeds (h : Reads r n)
    (sure : (Standard.production r).surely Label.isToken = true) : Succeeds (locationName n) := by
  unfold locationName
  split
  · exact .pure _
  · rename_i none
    refine succeeds_lack fun whole => ?_
    obtain ⟨label, has, isToken⟩ := h.has whole sure
    cases label with
    | rule q => cases isToken
    | token demand =>
      obtain ⟨t, filed⟩ := h.conforms.exists_token has
      have labelled := Node.mem_labelledTokens_of_mem_tokens (List.mem_of_head? filed)
      rw [List.head?_eq_none_iff.mp none] at labelled
      cases labelled

/-- A location is made: its child is one of the two kinds of locations. -/
theorem directiveLocation_succeeds (h : Reads .directiveLocation n) :
    Succeeds (directiveLocation n) := by
  refine h.withChosen (fun whole => h.exists_child whole rfl) fun c hc reads called => ?_
  rcases List.mem_pair.mp called with hr | hr <;> rw [hr] at reads <;> simp only [hr]
  · exact ⟨_, rfl, locationName_succeeds reads rfl⟩
  · exact ⟨_, rfl, locationName_succeeds reads rfl⟩

theorem directiveLocations_succeeds (h : Reads r n) : Succeeds (directiveLocations n) :=
  h.withPresent fun _ _ => directiveLocation_succeeds

/-- A directive definition is made, for its production has a name and locations in every match. -/
theorem DirectiveDefinition.ofNode_succeeds (h : Reads .directiveDefinition n) :
    Succeeds (DirectiveDefinition.ofNode n) := by
  have description := StringValue.description_succeeds h
  have name : Succeeds (Name.ofNode Category.name n) := Name.ofNode_succeeds h rfl
  have arguments : Succeeds (listWithin n .argumentsDefinition InputValueDefinition.allWithin) :=
    listWithin_succeeds h fun _ => InputValueDefinition.allWithin_succeeds
  have locations : Succeeds (n.withRequired .directiveLocations fun c _ => directiveLocations c) :=
    h.withRequired rfl fun _ _ => directiveLocations_succeeds
  exact .bind description fun _ => .bind name fun _ => .bind arguments fun _ =>
    .bind locations fun _ => .pure _

/-! ## Definitions -/

/-- Of a rule for each sort of types, one that is among them is found. -/
theorem TypeSort.exists_find {ruleOf : TypeSort → Rule} {q : Rule}
    (called : q ∈ TypeSort.all.map ruleOf) :
    ∃ sort, (TypeSort.all.find? fun s => ruleOf s == q) = some sort ∧ q = ruleOf sort := by
  obtain ⟨sort, hmem, rfl⟩ := List.mem_map.mp called
  cases found : TypeSort.all.find? fun s => ruleOf s == ruleOf sort with
  | none => exact absurd (beq_self_eq_true _) (List.find?_eq_none.mp found sort hmem)
  | some other =>
    have same := List.find?_some found
    exact ⟨other, rfl, (eq_of_beq same).symm⟩

namespace Definition

/-- A type definition is made: its child is of the rule of some sort, and the maker of that sort is
    found. -/
theorem typeOfNode_succeeds (h : Reads .typeDefinition n) : Succeeds (typeOfNode n) := by
  refine h.withChosen (fun whole => h.exists_child whole rfl) fun c hc reads called => ?_
  have called : c.rule ∈ TypeSort.all.map TypeSort.definitionRule := called
  obtain ⟨sort, found, hsort⟩ := TypeSort.exists_find called
  rw [hsort] at reads
  rw [found]
  exact ⟨_, rfl, .map _ (TypeDefinition.ofNode_succeeds sort reads)⟩

/-- And so is a type extension. -/
theorem typeExtensionOfNode_succeeds (h : Reads .typeExtension n) :
    Succeeds (typeExtensionOfNode n) := by
  refine h.withChosen (fun whole => h.exists_child whole rfl) fun c hc reads called => ?_
  have called : c.rule ∈ TypeSort.all.map TypeSort.extensionRule := called
  obtain ⟨sort, found, hsort⟩ := TypeSort.exists_find called
  rw [hsort] at reads
  rw [found]
  exact ⟨_, rfl, .map _ (TypeExtension.ofNode_succeeds sort reads)⟩

/-- An executable definition is made: its child is an operation or a fragment. -/
theorem executableOfNode_succeeds (h : Reads .executableDefinition n) :
    Succeeds (executableOfNode n) := by
  refine h.withChosen (fun whole => h.exists_child whole rfl) fun c hc reads called => ?_
  rcases List.mem_pair.mp called with hr | hr <;> rw [hr] at reads <;> simp only [hr]
  · exact ⟨_, rfl, .map _ (OperationDefinition.ofNode_succeeds reads)⟩
  · exact ⟨_, rfl, .map _ (FragmentDefinition.ofNode_succeeds reads)⟩

/-- A definition of the type system is made: its child is a schema, a type or a directive. -/
theorem typeSystemOfNode_succeeds (h : Reads .typeSystemDefinition n) :
    Succeeds (typeSystemOfNode n) := by
  refine h.withChosen (fun whole => h.exists_child whole rfl) fun c hc reads called => ?_
  have called : c.rule ∈ [.schemaDefinition, .typeDefinition, .directiveDefinition] := called
  simp only [List.mem_cons, List.not_mem_nil, or_false] at called
  rcases called with hr | hr | hr <;> rw [hr] at reads <;> simp only [hr]
  · exact ⟨_, rfl, .map _ (SchemaDefinition.ofNode_succeeds reads)⟩
  · exact ⟨_, rfl, typeOfNode_succeeds reads⟩
  · exact ⟨_, rfl, .map _ (DirectiveDefinition.ofNode_succeeds reads)⟩

/-- An extension is made: its child extends a schema or a type. -/
theorem typeSystemExtensionOfNode_succeeds (h : Reads .typeSystemExtension n) :
    Succeeds (typeSystemExtensionOfNode n) := by
  refine h.withChosen (fun whole => h.exists_child whole rfl) fun c hc reads called => ?_
  rcases List.mem_pair.mp called with hr | hr <;> rw [hr] at reads <;> simp only [hr]
  · exact ⟨_, rfl, .map _ (SchemaDefinition.extensionOfNode_succeeds reads)⟩
  · exact ⟨_, rfl, typeExtensionOfNode_succeeds reads⟩

/-- A definition is made: its child is of one of the three kinds. -/
theorem ofNode_succeeds (h : Reads .definition n) : Succeeds (ofNode n) := by
  refine h.withChosen (fun whole => h.exists_child whole rfl) fun c hc reads called => ?_
  have called : c.rule ∈ [.executableDefinition, .typeSystemDefinition, .typeSystemExtension] :=
    called
  simp only [List.mem_cons, List.not_mem_nil, or_false] at called
  rcases called with hr | hr | hr <;> rw [hr] at reads <;> simp only [hr]
  · exact ⟨_, rfl, executableOfNode_succeeds reads⟩
  · exact ⟨_, rfl, typeSystemOfNode_succeeds reads⟩
  · exact ⟨_, rfl, typeSystemExtensionOfNode_succeeds reads⟩

end Definition

theorem Document.ofNode_succeeds (h : Reads r n) : Succeeds (Document.ofNode n) :=
  .bind (h.withPresent fun _ _ => Definition.ofNode_succeeds) fun _ => .pure _

/-! ## Constructs -/

namespace Construct

theorem made_succeeds {α : Type} {f : α → Construct} {result : Build α} (h : Succeeds result) :
    Succeeds (made f result) := .map _ h

theorem chosen_succeeds {α : Type} {f : α → Construct} {result : Build (Option α)}
    (h : Succeeds result) : Succeeds (chosen f result) := .map _ h

/-- A conforming node of any rule can be made into what it stands for. -/
theorem ofNode_succeeds (h : Reads r n) : Succeeds (ofNode n) := by
  unfold ofNode
  rw [h.rule]
  -- each rule has a maker of its own
  cases r with
  | document => exact made_succeeds (Document.ofNode_succeeds h)
  | definition => exact chosen_succeeds (Definition.ofNode_succeeds h)
  | executableDefinition => exact chosen_succeeds (Definition.executableOfNode_succeeds h)
  | typeSystemDefinition => exact chosen_succeeds (Definition.typeSystemOfNode_succeeds h)
  | typeSystemExtension => exact chosen_succeeds (Definition.typeSystemExtensionOfNode_succeeds h)
  | typeDefinition => exact chosen_succeeds (Definition.typeOfNode_succeeds h)
  | typeExtension => exact chosen_succeeds (Definition.typeExtensionOfNode_succeeds h)
  | operationDefinition => exact made_succeeds (OperationDefinition.ofNode_succeeds h)
  | fragmentDefinition => exact made_succeeds (FragmentDefinition.ofNode_succeeds h)
  | schemaDefinition => exact made_succeeds (SchemaDefinition.ofNode_succeeds h)
  | schemaExtension => exact made_succeeds (SchemaDefinition.extensionOfNode_succeeds h)
  | scalarTypeDefinition => exact made_succeeds (TypeDefinition.ofNode_succeeds .scalar h)
  | objectTypeDefinition => exact made_succeeds (TypeDefinition.ofNode_succeeds .object h)
  | interfaceTypeDefinition => exact made_succeeds (TypeDefinition.ofNode_succeeds .interface h)
  | unionTypeDefinition => exact made_succeeds (TypeDefinition.ofNode_succeeds .union h)
  | enumTypeDefinition => exact made_succeeds (TypeDefinition.ofNode_succeeds .enum h)
  | inputObjectTypeDefinition => exact made_succeeds (TypeDefinition.ofNode_succeeds .inputObject h)
  | directiveDefinition => exact made_succeeds (DirectiveDefinition.ofNode_succeeds h)
  | scalarTypeExtension => exact made_succeeds (TypeExtension.ofNode_succeeds .scalar h)
  | objectTypeExtension => exact made_succeeds (TypeExtension.ofNode_succeeds .object h)
  | interfaceTypeExtension => exact made_succeeds (TypeExtension.ofNode_succeeds .interface h)
  | unionTypeExtension => exact made_succeeds (TypeExtension.ofNode_succeeds .union h)
  | enumTypeExtension => exact made_succeeds (TypeExtension.ofNode_succeeds .enum h)
  | inputObjectTypeExtension => exact made_succeeds (TypeExtension.ofNode_succeeds .inputObject h)
  | operationType => exact made_succeeds (OperationKind.ofNode_succeeds h)
  | selectionSet => exact made_succeeds (SelectionSet.ofNode_succeeds n h)
  | selection => exact chosen_succeeds (Selection.ofNode_succeeds n h)
  | field => exact made_succeeds (Field.ofNode_succeeds n h)
  | fragmentSpread => exact made_succeeds (FragmentSpread.ofNode_succeeds h)
  | inlineFragment => exact made_succeeds (InlineFragment.ofNode_succeeds n h)
  | «alias» => exact made_succeeds (Name.ofNode_succeeds h rfl)
  | fragmentName => exact made_succeeds (Name.ofNode_succeeds h rfl)
  | arguments => exact made_succeeds (Argument.allWithin_succeeds h)
  | argument => exact made_succeeds (Argument.ofNode_succeeds h)
  | typeCondition => exact made_succeeds (NamedType.within_succeeds h rfl)
  | namedType => exact made_succeeds (NamedType.ofNode_succeeds h)
  | value => exact chosen_succeeds (Value.ofNode_succeeds n h)
  | defaultValue => exact chosen_succeeds (Value.within_succeeds h rfl)
  | booleanValue => exact chosen_succeeds (Value.booleanOfNode_succeeds h)
  | nullValue => exact made_succeeds (Value.nullOfNode_succeeds h)
  | enumValue => exact chosen_succeeds (Value.enumOfNode_succeeds h)
  | listValue => exact made_succeeds (Value.listOfNode_succeeds n h)
  | objectValue => exact made_succeeds (Value.objectOfNode_succeeds n h)
  | objectField => exact made_succeeds (ObjectField.ofNode_succeeds n h)
  | «variable» => exact made_succeeds (Variable.ofNode_succeeds h)
  | variableDefinitions => exact made_succeeds (VariableDefinition.allWithin_succeeds h)
  | variableDefinition => exact made_succeeds (VariableDefinition.ofNode_succeeds h)
  | type => exact made_succeeds (TypeReference.ofNode_succeeds n h)
  | listType => exact made_succeeds (TypeReference.listOfNode_succeeds n h)
  | directives => exact made_succeeds (Directive.allWithin_succeeds h)
  | directive => exact made_succeeds (Directive.ofNode_succeeds h)
  | operationTypeDefinitionList => exact made_succeeds (OperationTypeDefinition.allWithin_succeeds h)
  | operationTypeDefinition => exact made_succeeds (OperationTypeDefinition.ofNode_succeeds h)
  | description => exact chosen_succeeds (StringValue.describing_succeeds h)
  | implementsInterfaces => exact made_succeeds (NamedType.allWithin_succeeds h)
  | unionMemberTypes => exact made_succeeds (NamedType.allWithin_succeeds h)
  | fieldsDefinition => exact made_succeeds (FieldDefinition.allWithin_succeeds h)
  | fieldDefinition => exact made_succeeds (FieldDefinition.ofNode_succeeds h)
  | argumentsDefinition => exact made_succeeds (InputValueDefinition.allWithin_succeeds h)
  | inputFieldsDefinition => exact made_succeeds (InputValueDefinition.allWithin_succeeds h)
  | inputValueDefinition => exact made_succeeds (InputValueDefinition.ofNode_succeeds h)
  | enumValuesDefinition => exact made_succeeds (EnumValueDefinition.allWithin_succeeds h)
  | enumValueDefinition => exact made_succeeds (EnumValueDefinition.ofNode_succeeds h)
  | directiveLocations => exact made_succeeds (directiveLocations_succeeds h)
  | directiveLocation => exact chosen_succeeds (directiveLocation_succeeds h)
  | executableDirectiveLocation => exact chosen_succeeds (locationName_succeeds h rfl)
  | typeSystemDirectiveLocation => exact chosen_succeeds (locationName_succeeds h rfl)

end Construct

/-- A conforming document can be made of its tree. -/
theorem Document.ofTree_succeeds (h : Reads .document n) : Succeeds (Document.ofTree n) := by
  unfold Document.ofTree
  rw [if_pos h.rule]
  exact Document.ofNode_succeeds h

/-! ## Every parse -/

theorem tree_readSource (g : Grammar) (source : String) (file : Option String) (entry : Rule) :
    (g.readSource source file entry).tree
      = (g.parse entry (Scan.ofSource source file).tokens).tree := rfl

/-- Making a document never fails on what the parser of the standard grammar gives.  The standard
    table is a grammar, and each parse by it, from any rule and of any tokens, gives a tree that can
    be made into what it stands for; from the rule of documents, into a document.  So every text is
    read as a document, with mistakes or without. -/
theorem every_parse_builds :
    ∃ g, Standard.grammar? = .ok g ∧
      (∀ (entry : Rule) (tokens : List Token),
        ∃ tree made, (g.parse entry tokens).tree = some tree ∧ Construct.ofNode tree = .ok made) ∧
      (∀ tokens : List Token, ∃ tree document,
        (g.parse .document tokens).tree = some tree ∧ Document.ofTree tree = .ok document) ∧
      ∀ (source : String) (file : Option String),
        ∃ document, (g.readSource source file).document = .ok document := by
  -- whatever the tokens are, the tree conforms to the rules
  have reads : ∀ entry tokens, ∃ tree,
      (Standard.grammar.parse entry tokens).tree = some tree ∧ Reads entry tree := by
    intro entry tokens
    obtain ⟨tree, htree, hrule, conforms⟩ :=
      exists_conforming_tree Standard.finish_eq entry tokens
    exact ⟨tree, htree, hrule, conforms⟩
  refine ⟨Standard.grammar, Standard.grammar?_eq, fun entry tokens => ?_, fun tokens => ?_,
    fun source file => ?_⟩
  · -- from any rule
    obtain ⟨tree, htree, reads⟩ := reads entry tokens
    obtain ⟨made, hmade⟩ := Construct.ofNode_succeeds reads
    exact ⟨tree, made, htree, hmade⟩
  · -- from documents
    obtain ⟨tree, htree, reads⟩ := reads .document tokens
    obtain ⟨document, hdocument⟩ := Document.ofTree_succeeds reads
    exact ⟨tree, document, htree, hdocument⟩
  · -- and so from any text
    obtain ⟨tree, htree, reads⟩ := reads .document (Scan.ofSource source file).tokens
    rw [Reading.document, tree_readSource, htree]
    exact Document.ofTree_succeeds reads

end GraphQL
