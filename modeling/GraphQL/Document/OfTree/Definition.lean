/-
  Definitions and documents from trees.

  `Document.ofTree` makes the document of a whole tree, `Construct.ofNode` what any single node
  stands for.  The parts of a definition are made in the order in which a document lists them, so
  of several gaps the first in that order is the one that is reported.
-/
import GraphQL.Document.Definition
import GraphQL.Document.OfTree.Selection

namespace GraphQL

/-! ## Operations and fragments -/

/-- The kind of operation that a node names; a broken reading that names none is a query. -/
def OperationKind.ofNode (n : Node) : Build OperationKind :=
  if n.has (.token Word.query) then .ok .query
  else if n.has (.token Word.mutation) then .ok .mutation
  else if n.has (.token Word.subscription) then .ok .subscription
  else do
    let kind ← n.lack <|
      .choice [.token Word.query, .token Word.mutation, .token Word.subscription] none
    return kind.getD .query

/-- The default value of a node; none if it came to nothing. -/
def givenDefault (n : Node) : Build (Option Value) := do
  let value ← n.withFirst .defaultValue fun c _ => Value.within c
  return value.join

/-- The declaration of a variable in a node. -/
def VariableDefinition.ofNode (n : Node) : Build VariableDefinition := do
  let declared ← n.withRequired .variable fun c _ => Variable.ofNode c
  let type ← TypeReference.within n
  let defaultValue ← givenDefault n
  return { declared := declared.getD ⟨.missing, .nowhere⟩, type, defaultValue, loc := n.span }

/-- The declarations of variables that a node holds. -/
def VariableDefinition.allWithin (n : Node) : Build (List VariableDefinition) :=
  n.withEach .variableDefinition fun c _ => VariableDefinition.ofNode c

/-- The operation of a node; without a keyword it is a query. -/
def OperationDefinition.ofNode (n : Node) : Build OperationDefinition := do
  let operation ← n.withFirst .operationType fun c _ => OperationKind.ofNode c
  let name := (n.token? Category.name).map Name.ofToken
  let variableDefinitions ← listWithin n .variableDefinitions VariableDefinition.allWithin
  let directives ← Directive.attached n
  let selectionSet ← SelectionSet.within n
  return { operation := operation.getD .query, name, variableDefinitions, directives
           selectionSet, loc := n.span }

/-- The named fragment of a node. -/
def FragmentDefinition.ofNode (n : Node) : Build FragmentDefinition := do
  let name ← fragmentName n
  let variableDefinitions ← n.withFirst .variableDefinitions fun c _ =>
    VariableDefinition.allWithin c
  let typeCondition ← n.withRequired .typeCondition fun c _ => NamedType.within c
  let directives ← Directive.attached n
  let selectionSet ← SelectionSet.within n
  return { name, variableDefinitions, typeCondition := typeCondition.getD .missing
           directives, selectionSet, loc := n.span }

/-! ## Parts of type definitions -/

/-- The description of a node, which is one string. -/
def StringValue.describing (n : Node) : Build (Option StringValue) := do
  let token ← n.requireToken Category.string
  return token.map StringValue.ofToken

/-- The description that what a node stands for may have. -/
def StringValue.description (n : Node) : Build (Option StringValue) := do
  let description ← n.withFirst .description fun c _ => StringValue.describing c
  return description.join

/-- The definition of an input value in a node. -/
def InputValueDefinition.ofNode (n : Node) : Build InputValueDefinition := do
  let description ← StringValue.description n
  let name ← Name.ofNode Category.name n
  let type ← TypeReference.within n
  let defaultValue ← givenDefault n
  let directives ← Directive.attached n
  return { description, name, type, defaultValue, directives, loc := n.span }

/-- The definitions of input values that a node holds. -/
def InputValueDefinition.allWithin (n : Node) : Build (List InputValueDefinition) :=
  n.withEach .inputValueDefinition fun c _ => InputValueDefinition.ofNode c

/-- The definition of a field in a node. -/
def FieldDefinition.ofNode (n : Node) : Build FieldDefinition := do
  let description ← StringValue.description n
  let name ← Name.ofNode Category.name n
  let arguments ← listWithin n .argumentsDefinition InputValueDefinition.allWithin
  let type ← TypeReference.within n
  let directives ← Directive.attached n
  return { description, name, arguments, type, directives, loc := n.span }

/-- The definitions of fields that a node holds. -/
def FieldDefinition.allWithin (n : Node) : Build (List FieldDefinition) :=
  n.withEach .fieldDefinition fun c _ => FieldDefinition.ofNode c

/-- The definition of an enumeration value in a node. -/
def EnumValueDefinition.ofNode (n : Node) : Build EnumValueDefinition := do
  let name ← n.withRequired .enumValue fun c _ => Name.ofNode Category.nameButLiteral c
  let description ← StringValue.description n
  let directives ← Directive.attached n
  return { description, name := name.getD .missing, directives, loc := n.span }

/-- The definitions of enumeration values that a node holds. -/
def EnumValueDefinition.allWithin (n : Node) : Build (List EnumValueDefinition) :=
  n.withEach .enumValueDefinition fun c _ => EnumValueDefinition.ofNode c

/-! ## Schemas -/

/-- The type of one sort of operation in a node. -/
def OperationTypeDefinition.ofNode (n : Node) : Build OperationTypeDefinition := do
  let operation ← n.withRequired .operationType fun c _ => OperationKind.ofNode c
  let type ← NamedType.within n
  return { operation := operation.getD .query, type, loc := n.span }

/-- The types of sorts of operations that a node holds. -/
def OperationTypeDefinition.allWithin (n : Node) : Build (List OperationTypeDefinition) :=
  n.withEach .operationTypeDefinition fun c _ => OperationTypeDefinition.ofNode c

/-- The schema of a node. -/
def SchemaDefinition.ofNode (n : Node) : Build SchemaDefinition := do
  let directives ← Directive.attached n
  let operationTypes ← OperationTypeDefinition.allWithin n
  return { directives, operationTypes, loc := n.span }

/-- The extension of a schema in a node; its types stand in a list of their own. -/
def SchemaDefinition.extensionOfNode (n : Node) : Build SchemaDefinition := do
  let directives ← Directive.attached n
  let operationTypes ← listWithin n .operationTypeDefinitionList OperationTypeDefinition.allWithin
  return { directives, operationTypes, loc := n.span }

/-! ## Types -/

/-- The sorts of types. -/
inductive TypeSort where
  | scalar | object | interface | union | enum | inputObject
deriving DecidableEq, Repr

namespace TypeSort

/-- The sorts, in the order in which the grammar tries them. -/
def all : List TypeSort := [.scalar, .object, .interface, .union, .enum, .inputObject]

/-- The rule that defines a type of the sort. -/
def definitionRule : TypeSort → Rule
  | .scalar => .scalarTypeDefinition
  | .object => .objectTypeDefinition
  | .interface => .interfaceTypeDefinition
  | .union => .unionTypeDefinition
  | .enum => .enumTypeDefinition
  | .inputObject => .inputObjectTypeDefinition

/-- The rule that extends a type of the sort. -/
def extensionRule : TypeSort → Rule
  | .scalar => .scalarTypeExtension
  | .object => .objectTypeExtension
  | .interface => .interfaceTypeExtension
  | .union => .unionTypeExtension
  | .enum => .enumTypeExtension
  | .inputObject => .inputObjectTypeExtension

end TypeSort

/-- The directives and the shape of a type, from a node of a definition or of an extension. -/
def TypeShape.ofNode (n : Node) : TypeSort → Build (List Directive × TypeShape)
  | .scalar => do
    let directives ← Directive.attached n
    return (directives, .scalar)
  | .object => do
    let interfaces ← listWithin n .implementsInterfaces NamedType.allWithin
    let directives ← Directive.attached n
    let fields ← listWithin n .fieldsDefinition FieldDefinition.allWithin
    return (directives, .object interfaces fields)
  | .interface => do
    let directives ← Directive.attached n
    let fields ← listWithin n .fieldsDefinition FieldDefinition.allWithin
    return (directives, .interface fields)
  | .union => do
    let directives ← Directive.attached n
    let types ← listWithin n .unionMemberTypes NamedType.allWithin
    return (directives, .union types)
  | .enum => do
    let directives ← Directive.attached n
    let values ← listWithin n .enumValuesDefinition EnumValueDefinition.allWithin
    return (directives, .enum values)
  | .inputObject => do
    let directives ← Directive.attached n
    let fields ← listWithin n .inputFieldsDefinition InputValueDefinition.allWithin
    return (directives, .inputObject fields)

/-- The definition of a type in a node. -/
def TypeDefinition.ofNode (sort : TypeSort) (n : Node) : Build TypeDefinition := do
  let description ← StringValue.description n
  let name ← Name.ofNode Category.name n
  let (directives, shape) ← TypeShape.ofNode n sort
  return { description, name, directives, shape, loc := n.span }

/-- The extension of a type in a node. -/
def TypeExtension.ofNode (sort : TypeSort) (n : Node) : Build TypeExtension := do
  let name ← Name.ofNode Category.name n
  let (directives, shape) ← TypeShape.ofNode n sort
  return { name, directives, shape, loc := n.span }

/-! ## Directives -/

/-- The place that a node names: its first token. -/
def locationName (n : Node) : Build (Option Name) :=
  match n.labelledTokens.head? with
  | some t => .ok (some (.ofToken t))
  | none => n.lack .location

/-- What the place of a directive chooses from. -/
def locationAlternatives : List Label :=
  [.rule .executableDirectiveLocation, .rule .typeSystemDirectiveLocation]

/-- The place of a directive in a node. -/
def directiveLocation (n : Node) : Build (Option Name) :=
  n.withChosen locationAlternatives fun c _ =>
    match c.rule with
    | .executableDirectiveLocation => some (locationName c)
    | .typeSystemDirectiveLocation => some (locationName c)
    | _ => none

/-- The places of a directive that a node holds. -/
def directiveLocations (n : Node) : Build (List Name) :=
  n.withPresent .directiveLocation fun c _ => directiveLocation c

/-- The definition of a directive in a node. -/
def DirectiveDefinition.ofNode (n : Node) : Build DirectiveDefinition := do
  let description ← StringValue.description n
  let name ← Name.ofNode Category.name n
  let arguments ← listWithin n .argumentsDefinition InputValueDefinition.allWithin
  let locations ← n.withRequired .directiveLocations fun c _ => directiveLocations c
  return { description, name, arguments, locations := locations.getD [], loc := n.span }

/-! ## Definitions -/

namespace Definition

/-- The definition of a type, of whichever sort the node has. -/
def typeOfNode (n : Node) : Build (Option Definition) :=
  n.withChosen (TypeSort.all.map fun sort => .rule sort.definitionRule) fun c _ =>
    (TypeSort.all.find? fun sort => sort.definitionRule == c.rule).map fun sort =>
      (TypeDefinition.ofNode sort c).map fun t => some (.type t)

/-- The extension of a type, of whichever sort the node has. -/
def typeExtensionOfNode (n : Node) : Build (Option Definition) :=
  n.withChosen (TypeSort.all.map fun sort => .rule sort.extensionRule) fun c _ =>
    (TypeSort.all.find? fun sort => sort.extensionRule == c.rule).map fun sort =>
      (TypeExtension.ofNode sort c).map fun t => some (.typeExtension t)

/-- The definition that a node of executable ones chooses. -/
def executableOfNode (n : Node) : Build (Option Definition) :=
  n.withChosen [.rule .operationDefinition, .rule .fragmentDefinition] fun c _ =>
    match c.rule with
    | .operationDefinition => some ((OperationDefinition.ofNode c).map fun o => some (.operation o))
    | .fragmentDefinition => some ((FragmentDefinition.ofNode c).map fun f => some (.fragment f))
    | _ => none

/-- The definition that a node of a type system chooses. -/
def typeSystemOfNode (n : Node) : Build (Option Definition) :=
  n.withChosen [.rule .schemaDefinition, .rule .typeDefinition, .rule .directiveDefinition]
    fun c _ =>
      match c.rule with
      | .schemaDefinition => some ((SchemaDefinition.ofNode c).map fun s => some (.schema s))
      | .typeDefinition => some (typeOfNode c)
      | .directiveDefinition =>
        some ((DirectiveDefinition.ofNode c).map fun d => some (.directive d))
      | _ => none

/-- The extension that a node of a type system chooses. -/
def typeSystemExtensionOfNode (n : Node) : Build (Option Definition) :=
  n.withChosen [.rule .schemaExtension, .rule .typeExtension] fun c _ =>
    match c.rule with
    | .schemaExtension =>
      some ((SchemaDefinition.extensionOfNode c).map fun s => some (.schemaExtension s))
    | .typeExtension => some (typeExtensionOfNode c)
    | _ => none

/-- The definition of a node. -/
def ofNode (n : Node) : Build (Option Definition) :=
  n.withChosen
    [.rule .executableDefinition, .rule .typeSystemDefinition, .rule .typeSystemExtension]
    fun c _ =>
      match c.rule with
      | .executableDefinition => some (executableOfNode c)
      | .typeSystemDefinition => some (typeSystemOfNode c)
      | .typeSystemExtension => some (typeSystemExtensionOfNode c)
      | _ => none

end Definition

/-! ## Documents -/

/-- The document of a node. -/
def Document.ofNode (n : Node) : Build Document := do
  let definitions ← n.withPresent .definition fun c _ => Definition.ofNode c
  return { definitions, loc := n.span }

/-- The document of a whole tree. -/
def Document.ofTree (tree : Node) : Build Document :=
  if tree.rule = .document then Document.ofNode tree else .error (.unexpectedRoot tree.rule)

/-! ## Constructs -/

namespace Construct

/-- What a node that is always something stands for. -/
def made {α : Type} (f : α → Construct) (result : Build α) : Build (Option Construct) :=
  result.map fun a => some (f a)

/-- What a node that may come to nothing stands for. -/
def chosen {α : Type} (f : α → Construct) (result : Build (Option α)) :
    Build (Option Construct) :=
  result.map (Option.map f)

/-- The definition of a type in a node. -/
def ofTypeDefinition (sort : TypeSort) (n : Node) : Build (Option Construct) :=
  made (fun t => .definition (.type t)) (TypeDefinition.ofNode sort n)

/-- The extension of a type in a node. -/
def ofTypeExtension (sort : TypeSort) (n : Node) : Build (Option Construct) :=
  made (fun t => .definition (.typeExtension t)) (TypeExtension.ofNode sort n)

/-- What a node stands for, whatever its rule; nothing if it was broken off too early. -/
def ofNode (n : Node) : Build (Option Construct) :=
  match n.rule with
  | .document => made .document (Document.ofNode n)
  | .definition => chosen .definition (Definition.ofNode n)
  | .executableDefinition => chosen .definition (Definition.executableOfNode n)
  | .typeSystemDefinition => chosen .definition (Definition.typeSystemOfNode n)
  | .typeSystemExtension => chosen .definition (Definition.typeSystemExtensionOfNode n)
  | .typeDefinition => chosen .definition (Definition.typeOfNode n)
  | .typeExtension => chosen .definition (Definition.typeExtensionOfNode n)
  | .operationDefinition => made (fun o => .definition (.operation o)) (OperationDefinition.ofNode n)
  | .fragmentDefinition => made (fun f => .definition (.fragment f)) (FragmentDefinition.ofNode n)
  | .schemaDefinition => made (fun s => .definition (.schema s)) (SchemaDefinition.ofNode n)
  | .schemaExtension =>
    made (fun s => .definition (.schemaExtension s)) (SchemaDefinition.extensionOfNode n)
  | .scalarTypeDefinition => ofTypeDefinition .scalar n
  | .objectTypeDefinition => ofTypeDefinition .object n
  | .interfaceTypeDefinition => ofTypeDefinition .interface n
  | .unionTypeDefinition => ofTypeDefinition .union n
  | .enumTypeDefinition => ofTypeDefinition .enum n
  | .inputObjectTypeDefinition => ofTypeDefinition .inputObject n
  | .directiveDefinition => made (fun d => .definition (.directive d)) (DirectiveDefinition.ofNode n)
  | .scalarTypeExtension => ofTypeExtension .scalar n
  | .objectTypeExtension => ofTypeExtension .object n
  | .interfaceTypeExtension => ofTypeExtension .interface n
  | .unionTypeExtension => ofTypeExtension .union n
  | .enumTypeExtension => ofTypeExtension .enum n
  | .inputObjectTypeExtension => ofTypeExtension .inputObject n
  | .operationType => made .operationKind (OperationKind.ofNode n)
  | .selectionSet => made .selectionSet (SelectionSet.ofNode n)
  | .selection => chosen .selection (Selection.ofNode n)
  | .field => made (fun f => .selection (.field f)) (Field.ofNode n)
  | .fragmentSpread => made (fun s => .selection (.spread s)) (FragmentSpread.ofNode n)
  | .inlineFragment => made (fun f => .selection (.inline f)) (InlineFragment.ofNode n)
  | .alias => made .name (Name.ofNode Category.name n)
  | .fragmentName => made .name (Name.ofNode Category.nameButOn n)
  | .arguments => made .arguments (Argument.allWithin n)
  | .argument => made .argument (Argument.ofNode n)
  | .typeCondition => made .namedType (NamedType.within n)
  | .namedType => made .namedType (NamedType.ofNode n)
  | .value => chosen .value (Value.ofNode n)
  | .defaultValue => chosen .value (Value.within n)
  | .booleanValue => chosen .value (Value.booleanOfNode n)
  | .nullValue => made .value (Value.nullOfNode n)
  | .enumValue => chosen .value (Value.enumOfNode n)
  | .listValue => made .value (Value.listOfNode n)
  | .objectValue => made .value (Value.objectOfNode n)
  | .objectField => made .objectField (ObjectField.ofNode n)
  | .variable => made .variable (Variable.ofNode n)
  | .variableDefinitions => made .variableDefinitions (VariableDefinition.allWithin n)
  | .variableDefinition => made .variableDefinition (VariableDefinition.ofNode n)
  | .type => made .type (TypeReference.ofNode n)
  | .listType => made .type (TypeReference.listOfNode n)
  | .directives => made .directives (Directive.allWithin n)
  | .directive => made .directive (Directive.ofNode n)
  | .operationTypeDefinitionList => made .operationTypes (OperationTypeDefinition.allWithin n)
  | .operationTypeDefinition => made .operationType (OperationTypeDefinition.ofNode n)
  | .description => chosen .description (StringValue.describing n)
  | .implementsInterfaces => made .namedTypes (NamedType.allWithin n)
  | .unionMemberTypes => made .namedTypes (NamedType.allWithin n)
  | .fieldsDefinition => made .fields (FieldDefinition.allWithin n)
  | .fieldDefinition => made .field (FieldDefinition.ofNode n)
  | .argumentsDefinition => made .inputValues (InputValueDefinition.allWithin n)
  | .inputFieldsDefinition => made .inputValues (InputValueDefinition.allWithin n)
  | .inputValueDefinition => made .inputValue (InputValueDefinition.ofNode n)
  | .enumValuesDefinition => made .enumValues (EnumValueDefinition.allWithin n)
  | .enumValueDefinition => made .enumValue (EnumValueDefinition.ofNode n)
  | .directiveLocations => made .names (directiveLocations n)
  | .directiveLocation => chosen .name (directiveLocation n)
  | .executableDirectiveLocation => chosen .name (locationName n)
  | .typeSystemDirectiveLocation => chosen .name (locationName n)

end Construct

end GraphQL
