/-
  What a document says, sign by sign.

  A `Sign` is the kind and the text of a token, without its place.  `Document.signs` writes a
  document down as the signs that say it, in the order of the text: what is optional in the text and
  has no part in the document is left out, a mark before the first item of a list and the keyword of
  an operation that is a mere selection set.

  Signs do not depend on places (`Document.signs_unplaced`), so documents that are alike without
  their places say the same.
-/
import GraphQL.Proofs.Unplaced
import GraphQL.Token

namespace GraphQL

/-! ## Signs -/

/-- What a token is and how it is written. -/
abbrev Sign := TokenKind × String

/-- A token without its place. -/
def Token.sign (t : Token) : Sign := (t.kind, t.text)

/-- A punctuator. -/
def Punctuator.sign (p : Punctuator) : Sign := (.punctuator p, p.text)

/-- A word of the grammar. -/
def Word.sign (w : Word) : Sign := (.keyword (.word w), w.text)

/-- A word as a name. -/
def nameSign (word : String) : Sign := (.ofWord word, word)

/-! ## Lists of signs -/

section Lists

variable {α β : Type} (opening closing mark : Punctuator) (signs : α → List Sign)

/-- Signs between two marks. -/
def between (inner : List Sign) : List Sign := opening.sign :: (inner ++ [closing.sign])

/-- A list between two marks, which is left out if it is empty. -/
def clauseBetween : List α → List Sign
  | [] => []
  | items => between opening closing (items.flatMap signs)

/-- A list with a mark between any two of its items. -/
def separated : List α → List Sign
  | [] => []
  | first :: rest => signs first ++ rest.flatMap fun item => mark.sign :: signs item

/-- What a part that may be absent says. -/
def optionSigns (part : Option α) : List Sign := (part.map signs).getD []

@[simp] theorem clauseBetween_map (f : β → α) (items : List β) :
    clauseBetween opening closing signs (items.map f)
      = clauseBetween opening closing (fun b => signs (f b)) items := by
  cases items <;> simp [clauseBetween, List.flatMap_map]

@[simp] theorem separated_map (f : β → α) (items : List β) :
    separated mark signs (items.map f) = separated mark (fun b => signs (f b)) items := by
  cases items <;> simp [separated, List.flatMap_map]

@[simp] theorem optionSigns_map (f : β → α) (part : Option β) :
    optionSigns signs (part.map f) = optionSigns (fun b => signs (f b)) part := by
  cases part <;> rfl

end Lists

/-! ## Names, types and values -/

/-- The sign of a name. -/
def Name.sign (n : Name) : Sign := nameSign n.value

/-- The signs of a variable. -/
def Variable.signs (v : Variable) : List Sign := [Punctuator.dollar.sign, v.name.sign]

/-- The signs of a named type. -/
def NamedType.signs (t : NamedType) : List Sign := [t.name.sign]

/-- The signs of a type reference. -/
def TypeReference.signs : TypeReference → List Sign
  | .named t => t.signs
  | .list element _ => between .leftBracket .rightBracket element.signs
  | .nonNull inner _ => inner.signs ++ [Punctuator.exclamation.sign]

/-- The sign of a string literal. -/
def StringValue.sign (s : StringValue) : Sign :=
  (if s.block then .blockString else .inlineString, s.value)

/-- The sign of a truth value. -/
def booleanSign (b : Bool) : Sign := if b then Word.trueWord.sign else Word.falseWord.sign

mutual

/-- The signs of a value. -/
def Value.signs : Value → List Sign
  | .variable v => v.signs
  | .int literal _ => [(.int, literal)]
  | .float literal _ => [(.float, literal)]
  | .string s => [s.sign]
  | .boolean b _ => [booleanSign b]
  | .null _ => [Word.nullWord.sign]
  | .enum name _ => [nameSign name]
  | .list values _ => between .leftBracket .rightBracket (Value.allSigns values)
  | .object fields _ => between .leftBrace .rightBrace (ObjectField.allSigns fields)
  | .missing => []

/-- The signs of a field of an input object. -/
def ObjectField.signs : ObjectField → List Sign
  | ⟨name, value, _⟩ => name.sign :: Punctuator.colon.sign :: value.signs

/-- The signs of some values. -/
def Value.allSigns : List Value → List Sign
  | [] => []
  | v :: rest => v.signs ++ Value.allSigns rest

/-- The signs of some fields. -/
def ObjectField.allSigns : List ObjectField → List Sign
  | [] => []
  | f :: rest => f.signs ++ ObjectField.allSigns rest

end

/-- The signs of values in a row are those of one after the other. -/
theorem Value.allSigns_eq (vs : List Value) : Value.allSigns vs = vs.flatMap Value.signs := by
  induction vs with
  | nil => rfl
  | cons v rest ih => simp [Value.allSigns, ih]

/-- And so are those of object fields. -/
theorem ObjectField.allSigns_eq (fs : List ObjectField) :
    ObjectField.allSigns fs = fs.flatMap ObjectField.signs := by
  induction fs with
  | nil => rfl
  | cons f rest ih => simp [ObjectField.allSigns, ih]

/-! ## Selections -/

/-- The signs of an argument. -/
def Argument.signs (a : Argument) : List Sign :=
  a.name.sign :: Punctuator.colon.sign :: a.value.signs

/-- The signs of arguments. -/
def argumentsSigns : List Argument → List Sign :=
  clauseBetween .leftParen .rightParen Argument.signs

/-- The signs of a directive. -/
def Directive.signs (d : Directive) : List Sign :=
  Punctuator.at.sign :: d.name.sign :: argumentsSigns d.arguments

/-- The signs of directives. -/
def directivesSigns (ds : List Directive) : List Sign := ds.flatMap Directive.signs

/-- The signs of the place of a fragment. -/
def FragmentSpread.signs (s : FragmentSpread) : List Sign :=
  Punctuator.ellipsis.sign :: s.name.sign :: directivesSigns s.directives

/-- The signs of a type that something is bound to. -/
def typeConditionSigns (t : NamedType) : List Sign := Word.on.sign :: t.signs

/-- The signs of an alias. -/
def aliasSigns (n : Name) : List Sign := [n.sign, Punctuator.colon.sign]

mutual

/-- The signs of a selection. -/
def Selection.signs : Selection → List Sign
  | .field f => f.signs
  | .spread s => s.signs
  | .inline f => f.signs

/-- The signs of a field. -/
def Field.signs : Field → List Sign
  | ⟨aliasName, name, arguments, directives, selectionSet, _⟩ =>
    optionSigns aliasSigns aliasName ++ name.sign ::
      (argumentsSigns arguments ++ directivesSigns directives
        ++ SelectionSet.optionSigns selectionSet)

/-- The signs of a fragment in place. -/
def InlineFragment.signs : InlineFragment → List Sign
  | ⟨typeCondition, directives, selectionSet, _⟩ =>
    Punctuator.ellipsis.sign ::
      (optionSigns typeConditionSigns typeCondition ++ directivesSigns directives
        ++ selectionSet.signs)

/-- The signs of a selection set. -/
def SelectionSet.signs : SelectionSet → List Sign
  | ⟨selections, _⟩ => between .leftBrace .rightBrace (Selection.allSigns selections)

/-- The signs of a selection set that may be there. -/
def SelectionSet.optionSigns : Option SelectionSet → List Sign
  | none => []
  | some s => s.signs

/-- The signs of some selections. -/
def Selection.allSigns : List Selection → List Sign
  | [] => []
  | s :: rest => s.signs ++ Selection.allSigns rest

end

theorem SelectionSet.optionSigns_eq (s? : Option SelectionSet) :
    SelectionSet.optionSigns s? = GraphQL.optionSigns SelectionSet.signs s? := by
  cases s? <;> rfl

/-- The signs of selections in a row are those of one after the other. -/
theorem Selection.allSigns_eq (ss : List Selection) :
    Selection.allSigns ss = ss.flatMap Selection.signs := by
  induction ss with
  | nil => rfl
  | cons s rest ih => simp [Selection.allSigns, ih]

/-! ## Operations and fragments -/

/-- The word for a kind of operation. -/
def OperationKind.word : OperationKind → Word
  | .query => .query
  | .mutation => .mutation
  | .subscription => .subscription

/-- The signs of a default value. -/
def defaultSigns (v : Value) : List Sign := Punctuator.equals.sign :: v.signs

/-- The signs of the declaration of a variable. -/
def VariableDefinition.signs (v : VariableDefinition) : List Sign :=
  v.declared.signs ++ Punctuator.colon.sign :: (v.type.signs ++ optionSigns defaultSigns v.defaultValue)

/-- The signs of declarations of variables. -/
def variableDefinitionsSigns : List VariableDefinition → List Sign :=
  clauseBetween .leftParen .rightParen VariableDefinition.signs

/-- Whether an operation can be written as its selection set alone. -/
def OperationDefinition.isBare (o : OperationDefinition) : Bool :=
  o.operation == .query && o.name.isNone && o.variableDefinitions.isEmpty && o.directives.isEmpty

/-- The signs of an operation. -/
def OperationDefinition.signs (o : OperationDefinition) : List Sign :=
  if o.isBare then o.selectionSet.signs
  else
    o.operation.word.sign ::
      (optionSigns (fun n => [n.sign]) o.name ++ variableDefinitionsSigns o.variableDefinitions
        ++ directivesSigns o.directives ++ o.selectionSet.signs)

/-- A bare operation has nothing but a selection set to be written behind its keyword. -/
theorem OperationDefinition.signs_eq (o : OperationDefinition) :
    o.signs = (if o.isBare then [] else [o.operation.word.sign])
      ++ (optionSigns (fun n => [n.sign]) o.name ++ (variableDefinitionsSigns o.variableDefinitions
        ++ (directivesSigns o.directives ++ o.selectionSet.signs))) := by
  unfold signs
  split
  · rename_i bare
    simp only [isBare, Bool.and_eq_true, Option.isNone_iff_eq_none, List.isEmpty_iff] at bare
    obtain ⟨⟨⟨-, name⟩, declared⟩, directives⟩ := bare
    rw [name, declared, directives]
    rfl
  · simp

/-- The signs of a named fragment. -/
def FragmentDefinition.signs (f : FragmentDefinition) : List Sign :=
  Word.fragment.sign :: f.name.sign ::
    (optionSigns variableDefinitionsSigns f.variableDefinitions
      ++ typeConditionSigns f.typeCondition ++ directivesSigns f.directives
      ++ f.selectionSet.signs)

/-! ## Parts of type definitions -/

/-- The signs of a description. -/
def descriptionSigns (s : StringValue) : List Sign := [s.sign]

/-- The signs of the definition of an input value. -/
def InputValueDefinition.signs (v : InputValueDefinition) : List Sign :=
  optionSigns descriptionSigns v.description ++ v.name.sign :: Punctuator.colon.sign ::
    (v.type.signs ++ optionSigns defaultSigns v.defaultValue ++ directivesSigns v.directives)

/-- The signs of the arguments that a field or a directive declares. -/
def argumentsDefinitionSigns : List InputValueDefinition → List Sign :=
  clauseBetween .leftParen .rightParen InputValueDefinition.signs

/-- The signs of the definition of a field. -/
def FieldDefinition.signs (f : FieldDefinition) : List Sign :=
  optionSigns descriptionSigns f.description ++ f.name.sign ::
    (argumentsDefinitionSigns f.arguments ++ Punctuator.colon.sign ::
      (f.type.signs ++ directivesSigns f.directives))

/-- The signs of the definition of an enumeration value. -/
def EnumValueDefinition.signs (v : EnumValueDefinition) : List Sign :=
  optionSigns descriptionSigns v.description ++ v.name.sign :: directivesSigns v.directives

/-- The signs of the type of one sort of operation. -/
def OperationTypeDefinition.signs (t : OperationTypeDefinition) : List Sign :=
  t.operation.word.sign :: Punctuator.colon.sign :: t.type.signs

/-- The signs of the types of sorts of operations. -/
def operationTypesSigns : List OperationTypeDefinition → List Sign :=
  clauseBetween .leftBrace .rightBrace OperationTypeDefinition.signs

/-! ## Type systems -/

/-- The signs of what a schema says. -/
def SchemaDefinition.signs (s : SchemaDefinition) : List Sign :=
  Word.schema.sign :: (directivesSigns s.directives ++ operationTypesSigns s.operationTypes)

/-- The signs of the interfaces that a type implements. -/
def interfacesSigns : List NamedType → List Sign
  | [] => []
  | types => Word.implements.sign :: separated .ampersand NamedType.signs types

/-- The signs of the members of a union. -/
def unionSigns : List NamedType → List Sign
  | [] => []
  | types => Punctuator.equals.sign :: separated .bar NamedType.signs types

/-- The signs of the fields of a type. -/
def fieldsSigns : List FieldDefinition → List Sign :=
  clauseBetween .leftBrace .rightBrace FieldDefinition.signs

/-- The signs of the values of an enumeration. -/
def enumValuesSigns : List EnumValueDefinition → List Sign :=
  clauseBetween .leftBrace .rightBrace EnumValueDefinition.signs

/-- The signs of the fields of an input type. -/
def inputFieldsSigns : List InputValueDefinition → List Sign :=
  clauseBetween .leftBrace .rightBrace InputValueDefinition.signs

namespace TypeShape

/-- The word for the sort of a type. -/
def word : TypeShape → Word
  | .scalar => .scalar
  | .object _ _ => .type
  | .interface _ => .interface
  | .union _ => .union
  | .enum _ => .enum
  | .inputObject _ => .input

/-- The signs of the clauses of a type, its directives among them. -/
def clauseSigns (directives : List Directive) : TypeShape → List Sign
  | .scalar => directivesSigns directives
  | .object interfaces fields =>
    interfacesSigns interfaces ++ directivesSigns directives ++ fieldsSigns fields
  | .interface fields => directivesSigns directives ++ fieldsSigns fields
  | .union types => directivesSigns directives ++ unionSigns types
  | .enum values => directivesSigns directives ++ enumValuesSigns values
  | .inputObject fields => directivesSigns directives ++ inputFieldsSigns fields

end TypeShape

/-- The signs of the definition of a type. -/
def TypeDefinition.signs (t : TypeDefinition) : List Sign :=
  optionSigns descriptionSigns t.description ++ t.shape.word.sign :: t.name.sign ::
    t.shape.clauseSigns t.directives

/-- The signs of the extension of a type. -/
def TypeExtension.signs (t : TypeExtension) : List Sign :=
  Word.extend.sign :: t.shape.word.sign :: t.name.sign :: t.shape.clauseSigns t.directives

/-- The signs of the definition of a directive. -/
def DirectiveDefinition.signs (d : DirectiveDefinition) : List Sign :=
  optionSigns descriptionSigns d.description ++ Word.directive.sign :: Punctuator.at.sign ::
    d.name.sign :: (argumentsDefinitionSigns d.arguments ++ Word.on.sign ::
      separated .bar (fun n : Name => [n.sign]) d.locations)

/-! ## Documents -/

/-- The signs of a definition. -/
def Definition.signs : Definition → List Sign
  | .operation o => o.signs
  | .fragment f => f.signs
  | .schema s => s.signs
  | .type t => t.signs
  | .directive d => d.signs
  | .schemaExtension s => Word.extend.sign :: s.signs
  | .typeExtension t => t.signs

/-- The signs of a document. -/
def Document.signs (d : Document) : List Sign := d.definitions.flatMap Definition.signs

/-! ## Signs do not depend on places -/

@[simp] theorem Name.sign_unplaced (n : Name) : n.unplaced.sign = n.sign := rfl

@[simp] theorem Variable.signs_unplaced (v : Variable) : v.unplaced.signs = v.signs := rfl

@[simp] theorem NamedType.signs_unplaced (t : NamedType) : t.unplaced.signs = t.signs := rfl

@[simp] theorem StringValue.sign_unplaced (s : StringValue) : s.unplaced.sign = s.sign := rfl

/-- A type is written alike wherever it stands. -/
@[simp] theorem TypeReference.signs_unplaced (t : TypeReference) :
    t.unplaced.signs = t.signs := by
  induction t with
  | named t => rfl
  | list element loc ih => simp [unplaced, signs, ih]
  | nonNull inner loc ih => simp [unplaced, signs, ih]

mutual

/-- So is a value.  The recursion is that of `Value.unplaced`. -/
@[simp] theorem Value.signs_unplaced : ∀ v : Value, v.unplaced.signs = v.signs
  | .variable _ | .int _ _ | .float _ _ | .string _ | .boolean _ _ | .null _ | .enum _ _
  | .missing => rfl
  | .list values _ => by simp [Value.unplaced, Value.signs, Value.allSigns_unplaced values]
  | .object fields _ => by
    simp [Value.unplaced, Value.signs, ObjectField.allSigns_unplaced fields]

theorem ObjectField.signs_unplaced : ∀ f : ObjectField, f.unplaced.signs = f.signs
  | ⟨name, value, _⟩ => by
    simp [ObjectField.unplaced, ObjectField.signs, Value.signs_unplaced value]

/-- The same, for values in a row. -/
theorem Value.allSigns_unplaced : ∀ vs : List Value,
    Value.allSigns (Value.allUnplaced vs) = Value.allSigns vs
  | [] => rfl
  | v :: rest => by
    simp [Value.allUnplaced, Value.allSigns, Value.signs_unplaced v, Value.allSigns_unplaced rest]

/-- The same, for object fields in a row. -/
theorem ObjectField.allSigns_unplaced : ∀ fs : List ObjectField,
    ObjectField.allSigns (ObjectField.allUnplaced fs) = ObjectField.allSigns fs
  | [] => rfl
  | f :: rest => by
    simp [ObjectField.allUnplaced, ObjectField.allSigns, ObjectField.signs_unplaced f,
      ObjectField.allSigns_unplaced rest]

end

@[simp] theorem Argument.signs_unplaced (a : Argument) : a.unplaced.signs = a.signs := by
  simp [unplaced, signs]

@[simp] theorem Directive.signs_unplaced (d : Directive) : d.unplaced.signs = d.signs := by
  simp [unplaced, signs, argumentsSigns]

@[simp] theorem directivesSigns_unplaced (ds : List Directive) :
    directivesSigns (ds.map Directive.unplaced) = directivesSigns ds := by
  simp [directivesSigns, List.flatMap_map]

@[simp] theorem FragmentSpread.signs_unplaced (s : FragmentSpread) :
    s.unplaced.signs = s.signs := by
  simp [unplaced, signs]

@[simp] theorem aliasSigns_unplaced (n : Name) : aliasSigns n.unplaced = aliasSigns n := rfl

@[simp] theorem typeConditionSigns_unplaced (t : NamedType) :
    typeConditionSigns t.unplaced = typeConditionSigns t := rfl

mutual

/-- So is a selection, whichever of the three it is. -/
theorem Selection.signs_unplaced : ∀ s : Selection, s.unplaced.signs = s.signs
  | .field f => Field.signs_unplaced f
  | .spread s => FragmentSpread.signs_unplaced s
  | .inline f => InlineFragment.signs_unplaced f

/-- A field is written alike wherever it stands, with what it selects. -/
theorem Field.signs_unplaced : ∀ f : Field, f.unplaced.signs = f.signs
  | ⟨aliasName, _, _, _, selectionSet, _⟩ => by
    simp [Field.unplaced, Field.signs, argumentsSigns,
      SelectionSet.optionSigns_unplaced selectionSet]

theorem InlineFragment.signs_unplaced : ∀ f : InlineFragment, f.unplaced.signs = f.signs
  | ⟨_, _, selectionSet, _⟩ => by
    simp [InlineFragment.unplaced, InlineFragment.signs, SelectionSet.signs_unplaced selectionSet]

@[simp] theorem SelectionSet.signs_unplaced : ∀ s : SelectionSet, s.unplaced.signs = s.signs
  | ⟨selections, _⟩ => by
    simp [SelectionSet.unplaced, SelectionSet.signs, Selection.allSigns_unplaced selections]

/-- The same, for a selection set that may be lacking. -/
theorem SelectionSet.optionSigns_unplaced : ∀ s : Option SelectionSet,
    SelectionSet.optionSigns (SelectionSet.optionUnplaced s) = SelectionSet.optionSigns s
  | none => rfl
  | some s => SelectionSet.signs_unplaced s

/-- The same, for selections in a row. -/
theorem Selection.allSigns_unplaced : ∀ ss : List Selection,
    Selection.allSigns (Selection.allUnplaced ss) = Selection.allSigns ss
  | [] => rfl
  | s :: rest => by
    simp [Selection.allUnplaced, Selection.allSigns, Selection.signs_unplaced s,
      Selection.allSigns_unplaced rest]

end

@[simp] theorem defaultSigns_unplaced (v : Value) : defaultSigns v.unplaced = defaultSigns v := by
  simp [defaultSigns]

@[simp] theorem descriptionSigns_unplaced (s : StringValue) :
    descriptionSigns s.unplaced = descriptionSigns s := rfl

@[simp] theorem VariableDefinition.signs_unplaced (v : VariableDefinition) :
    v.unplaced.signs = v.signs := by
  simp [unplaced, signs]

@[simp] theorem OperationDefinition.signs_unplaced (o : OperationDefinition) :
    o.unplaced.signs = o.signs := by
  simp [unplaced, signs, isBare, variableDefinitionsSigns]

@[simp] theorem FragmentDefinition.signs_unplaced (f : FragmentDefinition) :
    f.unplaced.signs = f.signs := by
  simp [unplaced, signs, variableDefinitionsSigns]

@[simp] theorem InputValueDefinition.signs_unplaced (v : InputValueDefinition) :
    v.unplaced.signs = v.signs := by
  simp [unplaced, signs]

@[simp] theorem FieldDefinition.signs_unplaced (f : FieldDefinition) :
    f.unplaced.signs = f.signs := by
  simp [unplaced, signs, argumentsDefinitionSigns]

@[simp] theorem EnumValueDefinition.signs_unplaced (v : EnumValueDefinition) :
    v.unplaced.signs = v.signs := by
  simp [unplaced, signs]

@[simp] theorem OperationTypeDefinition.signs_unplaced (t : OperationTypeDefinition) :
    t.unplaced.signs = t.signs := rfl

@[simp] theorem SchemaDefinition.signs_unplaced (s : SchemaDefinition) :
    s.unplaced.signs = s.signs := by
  simp [unplaced, signs, operationTypesSigns]

@[simp] theorem TypeShape.word_unplaced (s : TypeShape) : s.unplaced.word = s.word := by
  cases s <;> rfl

@[simp] theorem interfacesSigns_unplaced (ts : List NamedType) :
    interfacesSigns (ts.map NamedType.unplaced) = interfacesSigns ts := by
  cases ts <;> simp [interfacesSigns, separated, List.flatMap_map]

@[simp] theorem unionSigns_unplaced (ts : List NamedType) :
    unionSigns (ts.map NamedType.unplaced) = unionSigns ts := by
  cases ts <;> simp [unionSigns, separated, List.flatMap_map]

@[simp] theorem TypeShape.clauseSigns_unplaced (s : TypeShape) (ds : List Directive) :
    s.unplaced.clauseSigns (ds.map Directive.unplaced) = s.clauseSigns ds := by
  cases s <;> simp [unplaced, clauseSigns, fieldsSigns, enumValuesSigns, inputFieldsSigns]

@[simp] theorem TypeDefinition.signs_unplaced (t : TypeDefinition) :
    t.unplaced.signs = t.signs := by
  simp [unplaced, signs]

@[simp] theorem TypeExtension.signs_unplaced (t : TypeExtension) :
    t.unplaced.signs = t.signs := by
  simp [unplaced, signs]

@[simp] theorem DirectiveDefinition.signs_unplaced (d : DirectiveDefinition) :
    d.unplaced.signs = d.signs := by
  simp [unplaced, signs, argumentsDefinitionSigns]

@[simp] theorem Definition.signs_unplaced (d : Definition) : d.unplaced.signs = d.signs := by
  cases d <;> simp [unplaced, signs]

/-- A document says the same wherever its parts stand. -/
theorem Document.signs_unplaced (d : Document) : d.unplaced.signs = d.signs := by
  simp [unplaced, signs, List.flatMap_map]

end GraphQL
