/-
  The places in documents where no variable stands.

  Default values must be constants, and so must the arguments of directives that are attached to
  anything in a type system.  `Document.constants` collects all values in such places.  The grammar
  reads each of them under the flag "only constants" (`Constancy`), so in the document of a text,
  broken or not, none of them holds a variable.
-/
import GraphQL.Proofs.BuildingDocument
import GraphQL.Proofs.Constancy

namespace GraphQL

/-! ## Values that must be constants -/

/-- The values of the arguments of some directives. -/
def directivesValues (ds : List Directive) : List Value := ds.flatMap Directive.values

def VariableDefinition.constants (v : VariableDefinition) : List Value := v.defaultValue.toList

def InputValueDefinition.constants (i : InputValueDefinition) : List Value :=
  i.defaultValue.toList ++ directivesValues i.directives

def FieldDefinition.constants (f : FieldDefinition) : List Value :=
  f.arguments.flatMap InputValueDefinition.constants ++ directivesValues f.directives

def EnumValueDefinition.constants (e : EnumValueDefinition) : List Value :=
  directivesValues e.directives

/-- Those within the members of a type. -/
def TypeShape.constants : TypeShape → List Value
  | .scalar => []
  | .object _ fields => fields.flatMap FieldDefinition.constants
  | .interface fields => fields.flatMap FieldDefinition.constants
  | .union _ => []
  | .enum values => values.flatMap EnumValueDefinition.constants
  | .inputObject fields => fields.flatMap InputValueDefinition.constants

/-- Those within a definition.  In operations and fragments only the default values of variables
    are; elsewhere a variable may stand. -/
def Definition.constants : Definition → List Value
  | .operation o => o.variableDefinitions.flatMap VariableDefinition.constants
  | .fragment f => (f.variableDefinitions.getD []).flatMap VariableDefinition.constants
  | .schema s => directivesValues s.directives
  | .type t => directivesValues t.directives ++ t.shape.constants
  | .directive d => d.arguments.flatMap InputValueDefinition.constants
  | .schemaExtension s => directivesValues s.directives
  | .typeExtension t => directivesValues t.directives ++ t.shape.constants

/-- Every default value in a document, and every value of an argument of a directive that is
    attached to a definition or an extension of a type system or to something within one. -/
def Document.constants (d : Document) : List Value := d.definitions.flatMap Definition.constants

/-! ### Lists of constants -/

theorem AllConst.nil : AllConst [] := fun _ => nofun

/-- Values next to each other are constant if both parts are. -/
theorem AllConst.append {vs ws : List Value} (h₁ : AllConst vs) (h₂ : AllConst ws) :
    AllConst (vs ++ ws) := by
  intro v hv
  rcases List.mem_append.mp hv with hv | hv
  · exact h₁ v hv
  · exact h₂ v hv

/-- The values of all things in a list are constant if those of each are. -/
theorem AllConst.flatMap {α : Type} {f : α → List Value} {as : List α}
    (h : ∀ a ∈ as, AllConst (f a)) : AllConst (as.flatMap f) := by
  intro v hv
  obtain ⟨a, ha, hv⟩ := List.mem_flatMap.mp hv
  exact h a ha v hv

/-- A value that may be lacking is constant if it is where it is there. -/
theorem AllConst.toList {o : Option Value} (h : ∀ v ∈ o, v.isConst = true) :
    AllConst o.toList := by
  intro v hv
  exact h v (Option.mem_toList.mp hv)

/-! ## Default values -/

section Definitions

variable {r : Rule} {constant : Bool} {n : Node}

/-- Whatever the flag is where it stands, a default value is a constant. -/
theorem givenDefault_const (h : ReadAs r constant n) :
    Ensures (fun o => ∀ v ∈ o, Value.isConst v = true) (givenDefault n) := by
  refine Ensures.bind (h.withFirst fun c hc flag slot read => ?_) fun o ho =>
    .pure (forall_mem_join ho)
  exact Value.within_const read (by cases flag <;> decide)

/-- The default of a variable is constant, under whichever flag the definition is read. -/
theorem VariableDefinition.ofNode_const (h : ReadAs r constant n) :
    Ensures (fun v => AllConst (VariableDefinition.constants v)) (VariableDefinition.ofNode n) := by
  have default := givenDefault_const h
  exact Ensures.any.bind fun _ _ => Ensures.any.bind fun _ _ => default.bind fun o ho =>
    .pure (.toList ho)

theorem VariableDefinition.allWithin_const (h : ReadAs r constant n) :
    Ensures (fun vs => ∀ v ∈ vs, AllConst (VariableDefinition.constants v))
      (VariableDefinition.allWithin n) :=
  h.withEach fun _ _ _ _ => VariableDefinition.ofNode_const

/-! ## Type systems -/

/-- Whether directives that stand in a rule have constant arguments, under either flag. -/
def ConstDirectives (r : Rule) : Prop :=
  ∀ constant, .call .directives false ∉ (Standard.production r).slots constant

instance (r : Rule) : Decidable (ConstDirectives r) :=
  inferInstanceAs (Decidable (∀ constant, _ ∉ (Standard.production r).slots constant))

/-- The directives attached in a rule whose directives have constant arguments. -/
theorem directivesValues_const (h : ReadAs r constant n) (const : ConstDirectives r) :
    Ensures (fun ds => AllConst (directivesValues ds)) (Directive.attached n) := by
  intro ds made
  exact .flatMap (Directive.attached_const h (const constant) ds made)

/-- The default and the directives of an input value are constant. -/
theorem InputValueDefinition.ofNode_const (h : ReadAs .inputValueDefinition constant n) :
    Ensures (fun i => AllConst (InputValueDefinition.constants i))
      (InputValueDefinition.ofNode n) := by
  have default := givenDefault_const h
  have directives := directivesValues_const h (by decide)
  refine Ensures.any.bind fun _ _ => Ensures.any.bind fun _ _ => Ensures.any.bind fun _ _ => ?_
  exact default.bind fun o ho => directives.bind fun ds hds => .pure (.append (.toList ho) hds)

theorem InputValueDefinition.allWithin_const (h : ReadAs r constant n) :
    Ensures (fun is => ∀ i ∈ is, AllConst (InputValueDefinition.constants i))
      (InputValueDefinition.allWithin n) :=
  h.withEach fun _ _ _ _ => InputValueDefinition.ofNode_const

/-- The directives of a field definition and of its parameters are constant, and so are the defaults
    of these. -/
theorem FieldDefinition.ofNode_const (h : ReadAs .fieldDefinition constant n) :
    Ensures (fun f => AllConst (FieldDefinition.constants f)) (FieldDefinition.ofNode n) := by
  have arguments := h.listWithin (q := .argumentsDefinition) fun _ _ _ =>
    InputValueDefinition.allWithin_const
  have directives := directivesValues_const h (by decide)
  refine Ensures.any.bind fun _ _ => Ensures.any.bind fun _ _ => arguments.bind fun is his => ?_
  exact Ensures.any.bind fun _ _ => directives.bind fun ds hds => .pure (.append (.flatMap his) hds)

theorem FieldDefinition.allWithin_const (h : ReadAs r constant n) :
    Ensures (fun fs => ∀ f ∈ fs, AllConst (FieldDefinition.constants f))
      (FieldDefinition.allWithin n) :=
  h.withEach fun _ _ _ _ => FieldDefinition.ofNode_const

/-- The directives of an enumeration value are constant. -/
theorem EnumValueDefinition.ofNode_const (h : ReadAs .enumValueDefinition constant n) :
    Ensures (fun e => AllConst (EnumValueDefinition.constants e))
      (EnumValueDefinition.ofNode n) := by
  have directives := directivesValues_const h (by decide)
  exact Ensures.any.bind fun _ _ => Ensures.any.bind fun _ _ => directives.bind fun ds hds =>
    .pure hds

theorem EnumValueDefinition.allWithin_const (h : ReadAs r constant n) :
    Ensures (fun es => ∀ e ∈ es, AllConst (EnumValueDefinition.constants e))
      (EnumValueDefinition.allWithin n) :=
  h.withEach fun _ _ _ _ => EnumValueDefinition.ofNode_const

theorem SchemaDefinition.ofNode_const (h : ReadAs r constant n) (const : ConstDirectives r) :
    Ensures (fun s => AllConst (directivesValues s.directives)) (SchemaDefinition.ofNode n) :=
  (directivesValues_const h const).bind fun _ hds => Ensures.any.bind fun _ _ => .pure hds

/-- The directives of a schema extension are constant where its rule reads them so. -/
theorem SchemaDefinition.extensionOfNode_const (h : ReadAs r constant n)
    (const : ConstDirectives r) :
    Ensures (fun s => AllConst (directivesValues s.directives))
      (SchemaDefinition.extensionOfNode n) :=
  (directivesValues_const h const).bind fun _ hds => Ensures.any.bind fun _ _ => .pure hds

/-- The directives of a type and its members, of whichever sort it is. -/
theorem TypeShape.ofNode_const (h : ReadAs r constant n) (const : ConstDirectives r)
    (sort : TypeSort) :
    Ensures (fun made => AllConst (directivesValues made.1 ++ TypeShape.constants made.2))
      (TypeShape.ofNode n sort) := by
  have directives := directivesValues_const h const
  have fields := h.listWithin (q := .fieldsDefinition) fun _ _ _ => FieldDefinition.allWithin_const
  have values := h.listWithin (q := .enumValuesDefinition) fun _ _ _ =>
    EnumValueDefinition.allWithin_const
  have inputs := h.listWithin (q := .inputFieldsDefinition) fun _ _ _ =>
    InputValueDefinition.allWithin_const
  -- the sorts differ in which of their members hold values
  cases sort with
  | scalar => exact directives.bind fun ds hds => .pure (.append hds .nil)
  | object =>
    refine Ensures.any.bind fun _ _ => directives.bind fun ds hds => ?_
    exact fields.bind fun fs hfs => .pure (.append hds (.flatMap hfs))
  | interface =>
    exact directives.bind fun ds hds => fields.bind fun fs hfs => .pure (.append hds (.flatMap hfs))
  | union =>
    exact directives.bind fun ds hds => Ensures.any.bind fun _ _ => .pure (.append hds .nil)
  | enum =>
    exact directives.bind fun ds hds => values.bind fun es hes => .pure (.append hds (.flatMap hes))
  | inputObject =>
    exact directives.bind fun ds hds => inputs.bind fun is his => .pure (.append hds (.flatMap his))

/-- All values in a type definition are constant where its rule reads its directives so. -/
theorem TypeDefinition.ofNode_const (h : ReadAs r constant n) (const : ConstDirectives r)
    (sort : TypeSort) :
    Ensures (fun t => AllConst (Definition.constants (.type t))) (TypeDefinition.ofNode sort n) := by
  have shape := TypeShape.ofNode_const h const sort
  refine Ensures.any.bind fun _ _ => Ensures.any.bind fun _ _ => ?_
  exact shape.bind fun ⟨_, _⟩ both => .pure both

/-- And so are all values in a type extension. -/
theorem TypeExtension.ofNode_const (h : ReadAs r constant n) (const : ConstDirectives r)
    (sort : TypeSort) :
    Ensures (fun t => AllConst (Definition.constants (.typeExtension t)))
      (TypeExtension.ofNode sort n) := by
  have shape := TypeShape.ofNode_const h const sort
  exact Ensures.any.bind fun _ _ => shape.bind fun ⟨_, _⟩ both => .pure both

/-- The defaults and directives of the parameters of a directive are constant. -/
theorem DirectiveDefinition.ofNode_const (h : ReadAs r constant n) :
    Ensures (fun d => AllConst (Definition.constants (.directive d)))
      (DirectiveDefinition.ofNode n) := by
  have arguments := h.listWithin (q := .argumentsDefinition) fun _ _ _ =>
    InputValueDefinition.allWithin_const
  refine Ensures.any.bind fun _ _ => Ensures.any.bind fun _ _ => arguments.bind fun is his => ?_
  exact Ensures.any.bind fun _ _ => .pure (.flatMap his)

/-! ## Operations and fragments -/

/-- The defaults of the variables of an operation are constant. -/
theorem OperationDefinition.ofNode_const (h : ReadAs r constant n) :
    Ensures (fun o => AllConst (Definition.constants (.operation o)))
      (OperationDefinition.ofNode n) := by
  have declared := h.listWithin (q := .variableDefinitions) fun _ _ _ =>
    VariableDefinition.allWithin_const
  refine Ensures.any.bind fun _ _ => declared.bind fun vs hvs => ?_
  exact Ensures.any.bind fun _ _ => Ensures.any.bind fun _ _ => .pure (.flatMap hvs)

/-- The defaults of the variables of a fragment are constant. -/
theorem FragmentDefinition.ofNode_const (h : ReadAs r constant n) :
    Ensures (fun f => AllConst (Definition.constants (.fragment f)))
      (FragmentDefinition.ofNode n) := by
  have declared := h.withFirst (q := .variableDefinitions) fun _ _ _ _ =>
    VariableDefinition.allWithin_const
  refine Ensures.any.bind fun _ _ => declared.bind fun vs hvs => ?_
  refine Ensures.any.bind fun _ _ => Ensures.any.bind fun _ _ => Ensures.any.bind fun _ _ => ?_
  exact .pure (.flatMap (getD_of_forall_mem hvs fun _ => nofun))

/-! ## Definitions -/

namespace Definition

/-- The directives of a type of any sort have constant arguments. -/
theorem constDirectives_definitionRule (sort : TypeSort) :
    ConstDirectives sort.definitionRule := by
  cases sort <;> decide

theorem constDirectives_extensionRule (sort : TypeSort) : ConstDirectives sort.extensionRule := by
  cases sort <;> decide

/-- A type definition has only constants where they are asked for, whichever sort it is. -/
theorem typeOfNode_const (h : ReadAs r constant n) :
    Ensures (fun o => ∀ d ∈ o, AllConst (Definition.constants d)) (typeOfNode n) := by
  refine h.withChosen fun c hc flag slot read result made => ?_
  obtain ⟨sort, found, rfl⟩ := Option.map_eq_some_iff.mp made
  have rule : sort.definitionRule = c.rule := by simpa using List.find?_some found
  rw [← rule] at read
  exact (TypeDefinition.ofNode_const read (constDirectives_definitionRule sort) sort).mapSome
    fun _ => id

/-- So has a type extension. -/
theorem typeExtensionOfNode_const (h : ReadAs r constant n) :
    Ensures (fun o => ∀ d ∈ o, AllConst (Definition.constants d)) (typeExtensionOfNode n) := by
  refine h.withChosen fun c hc flag slot read result made => ?_
  obtain ⟨sort, found, rfl⟩ := Option.map_eq_some_iff.mp made
  have rule : sort.extensionRule = c.rule := by simpa using List.find?_some found
  rw [← rule] at read
  exact (TypeExtension.ofNode_const read (constDirectives_extensionRule sort) sort).mapSome
    fun _ => id

/-- So has an operation or a fragment. -/
theorem executableOfNode_const (h : ReadAs r constant n) :
    Ensures (fun o => ∀ d ∈ o, AllConst (Definition.constants d)) (executableOfNode n) := by
  refine h.withChosen fun c hc flag slot read result made => ?_
  split at made
  · cases made
    exact (OperationDefinition.ofNode_const read).mapSome fun _ => id
  · cases made
    exact (FragmentDefinition.ofNode_const read).mapSome fun _ => id
  · cases made

/-- So has a schema, a type or a directive definition. -/
theorem typeSystemOfNode_const (h : ReadAs r constant n) :
    Ensures (fun o => ∀ d ∈ o, AllConst (Definition.constants d)) (typeSystemOfNode n) := by
  refine h.withChosen fun c hc flag slot read result made => ?_
  split at made
  · rename_i rule
    rw [rule] at read
    cases made
    exact (SchemaDefinition.ofNode_const read (by decide)).mapSome fun _ => id
  · cases made
    exact typeOfNode_const read
  · cases made
    exact (DirectiveDefinition.ofNode_const read).mapSome fun _ => id
  · cases made

/-- So has an extension of a schema or of a type. -/
theorem typeSystemExtensionOfNode_const (h : ReadAs r constant n) :
    Ensures (fun o => ∀ d ∈ o, AllConst (Definition.constants d))
      (typeSystemExtensionOfNode n) := by
  refine h.withChosen fun c hc flag slot read result made => ?_
  split at made
  · rename_i rule
    rw [rule] at read
    cases made
    exact (SchemaDefinition.extensionOfNode_const read (by decide)).mapSome fun _ => id
  · cases made
    exact typeExtensionOfNode_const read
  · cases made

/-- So has a definition of any kind. -/
theorem ofNode_const (h : ReadAs r constant n) :
    Ensures (fun o => ∀ d ∈ o, AllConst (Definition.constants d)) (Definition.ofNode n) := by
  refine h.withChosen fun c hc flag slot read result made => ?_
  split at made
  · cases made
    exact executableOfNode_const read
  · cases made
    exact typeSystemOfNode_const read
  · cases made
    exact typeSystemExtensionOfNode_const read
  · cases made

end Definition

end Definitions

/-! ## Documents -/

/-- So have all definitions of a document. -/
theorem Document.ofTree_const {constant : Bool} {n : Node} (h : ReadAs .document constant n) :
    Ensures (fun d => AllConst (Document.constants d)) (Document.ofTree n) := by
  have definitions := h.withPresent (q := .definition) fun _ _ _ _ => Definition.ofNode_const
  unfold Document.ofTree
  rw [if_pos h.rule]
  exact definitions.bind fun ds hds => .pure (.flatMap hds)

/-- Where constants must stand there are no variables.  Every text, with mistakes or without, is
    read as a document in which each default value, and each value of an argument of a directive
    that is attached in a type system, holds no variable at any depth. -/
theorem constants_hold_no_variable :
    ∃ g, Standard.grammar? = .ok g ∧ ∀ (source : String) (file : Option String),
      ∃ document, (g.readSource source file).document = .ok document ∧
        ∀ v ∈ document.constants, v.isConst = true := by
  refine ⟨Standard.grammar, Standard.grammar?_eq, fun source file => ?_⟩
  obtain ⟨tree, htree, root, read⟩ :=
    exists_tree_readUnder Standard.finish_eq .document (Scan.ofSource source file).tokens
  obtain ⟨document, made⟩ := Document.ofTree_succeeds ⟨root, read.conforms⟩
  refine ⟨document, ?_, Document.ofTree_const ⟨root, read⟩ document made⟩
  rw [Reading.document, tree_readSource, htree]
  exact made

end GraphQL
