/-
  Reserved words do not come into documents where they are ruled out.

  `true`, `false` and `null` are no names of enumeration values, `on` is no name of a fragment, and a
  type with an exclamation mark is not given a second one.  `Mention` lists the places of a document
  where something is ruled out in this way, and `mentions` collects them.

  For the names the reason lies in the tree: a maker takes such a name from what stands under a demand
  that rules the words out, and nothing stands there that the demand rules out (`Node.Heeds`).  A name
  that is lacking is empty, which is no word either.  For the marks the reason lies in the maker: what
  it puts a mark on was made of a named type or of a list.

  The makers are gone through in the order in which they are defined.
-/
import GraphQL.Proofs.BuildingDocument
import GraphQL.Proofs.Filing

namespace GraphQL

/-! ## Mentions -/

/-- A place in a document where some words or types may not stand, with what stands there. -/
inductive Mention where
  | enumLiteral (name : String)
  | enumDefinition (name : String)
  | fragmentDefinition (name : String)
  | fragmentSpread (name : String)
  | nonNull (inner : TypeReference)

/-- Whether what stands in the place may stand there. -/
def Mention.Allowed : Mention → Prop
  | .enumLiteral name => name ≠ "true" ∧ name ≠ "false" ∧ name ≠ "null"
  | .enumDefinition name => name ≠ "true" ∧ name ≠ "false" ∧ name ≠ "null"
  | .fragmentDefinition name => name ≠ "on"
  | .fragmentSpread name => name ≠ "on"
  | .nonNull inner => inner.isNonNull = false

/-- Things in which such places may be. -/
class HasMentions (α : Type) where
  /-- All such places in something, at any depth. -/
  mentions : α → List Mention

export HasMentions (mentions)

instance {α : Type} [HasMentions α] : HasMentions (Option α) where
  mentions
    | none => []
    | some a => mentions a

instance {α : Type} [HasMentions α] : HasMentions (List α) where
  mentions as := as.flatMap mentions

/-! ### Types and values -/

/-- The places in a type reference. -/
def TypeReference.mentions : TypeReference → List Mention
  | .named _ => []
  | .list element _ => element.mentions
  | .nonNull inner _ => .nonNull inner :: inner.mentions

instance : HasMentions TypeReference := ⟨TypeReference.mentions⟩

mutual

/-- The places in a value. -/
def Value.mentions : Value → List Mention
  | .variable _ => []
  | .int _ _ => []
  | .float _ _ => []
  | .string _ => []
  | .boolean _ _ => []
  | .null _ => []
  | .enum name _ => [.enumLiteral name]
  | .list values _ => Value.allMentions values
  | .object fields _ => ObjectField.allMentions fields
  | .missing => []

/-- The places in a field of an input object. -/
def ObjectField.mentions : ObjectField → List Mention
  | ⟨_, value, _⟩ => value.mentions

/-- The places in some values. -/
def Value.allMentions : List Value → List Mention
  | [] => []
  | v :: rest => v.mentions ++ Value.allMentions rest

/-- The places in some fields. -/
def ObjectField.allMentions : List ObjectField → List Mention
  | [] => []
  | f :: rest => f.mentions ++ ObjectField.allMentions rest

end

instance : HasMentions Value := ⟨Value.mentions⟩

instance : HasMentions ObjectField := ⟨ObjectField.mentions⟩

/-! ### Selections -/

instance : HasMentions Argument where
  mentions a := mentions a.value

instance : HasMentions Directive where
  mentions d := mentions d.arguments

instance : HasMentions FragmentSpread where
  mentions s := .fragmentSpread s.name.value :: mentions s.directives

mutual

/-- The places in a selection, of whichever sort. -/
def Selection.mentions : Selection → List Mention
  | .field f => f.mentions
  | .spread s => GraphQL.mentions s
  | .inline f => f.mentions

/-- The places in a field. -/
def Field.mentions : Field → List Mention
  | ⟨_, _, arguments, directives, selectionSet, _⟩ =>
    GraphQL.mentions arguments ++ GraphQL.mentions directives
      ++ SelectionSet.optionMentions selectionSet

/-- The places in a fragment in place. -/
def InlineFragment.mentions : InlineFragment → List Mention
  | ⟨_, directives, selectionSet, _⟩ => GraphQL.mentions directives ++ selectionSet.mentions

/-- The places in a selection set. -/
def SelectionSet.mentions : SelectionSet → List Mention
  | ⟨selections, _⟩ => Selection.allMentions selections

/-- The places in a selection set that may be there. -/
def SelectionSet.optionMentions : Option SelectionSet → List Mention
  | none => []
  | some s => s.mentions

/-- The places in some selections. -/
def Selection.allMentions : List Selection → List Mention
  | [] => []
  | s :: rest => s.mentions ++ Selection.allMentions rest

end

instance : HasMentions Selection := ⟨Selection.mentions⟩

instance : HasMentions Field := ⟨Field.mentions⟩

instance : HasMentions InlineFragment := ⟨InlineFragment.mentions⟩

instance : HasMentions SelectionSet := ⟨SelectionSet.mentions⟩

/-! ### Definitions and documents -/

instance : HasMentions VariableDefinition where
  mentions v := mentions v.type ++ mentions v.defaultValue

instance : HasMentions OperationDefinition where
  mentions o := mentions o.variableDefinitions ++ mentions o.directives ++ mentions o.selectionSet

instance : HasMentions FragmentDefinition where
  mentions f := .fragmentDefinition f.name.value ::
    (mentions f.variableDefinitions ++ mentions f.directives ++ mentions f.selectionSet)

instance : HasMentions InputValueDefinition where
  mentions v := mentions v.type ++ mentions v.defaultValue ++ mentions v.directives

instance : HasMentions FieldDefinition where
  mentions f := mentions f.arguments ++ mentions f.type ++ mentions f.directives

instance : HasMentions EnumValueDefinition where
  mentions v := .enumDefinition v.name.value :: mentions v.directives

instance : HasMentions SchemaDefinition where
  mentions s := mentions s.directives

instance : HasMentions TypeShape where
  mentions
    | .scalar => []
    | .object _ fields => mentions fields
    | .interface fields => mentions fields
    | .union _ => []
    | .enum values => mentions values
    | .inputObject fields => mentions fields

instance : HasMentions TypeDefinition where
  mentions t := mentions t.directives ++ mentions t.shape

instance : HasMentions TypeExtension where
  mentions t := mentions t.directives ++ mentions t.shape

instance : HasMentions DirectiveDefinition where
  mentions d := mentions d.arguments

instance : HasMentions Definition where
  mentions
    | .operation o => mentions o
    | .fragment f => mentions f
    | .schema s => mentions s
    | .type t => mentions t
    | .directive d => mentions d
    | .schemaExtension s => mentions s
    | .typeExtension t => mentions t

instance : HasMentions Document where
  mentions d := mentions d.definitions

/-! ## Proper things -/

/-- Nothing in something stands where it is ruled out. -/
def Proper {α : Type} [HasMentions α] (a : α) : Prop := ∀ m ∈ mentions a, m.Allowed

/-- Mentions next to each other. -/
theorem allowed_append {ms ms' : List Mention} (h : ∀ m ∈ ms, m.Allowed)
    (h' : ∀ m ∈ ms', m.Allowed) : ∀ m ∈ ms ++ ms', m.Allowed :=
  List.forall_mem_append.mpr ⟨h, h'⟩

namespace Proper

variable {α : Type} [HasMentions α]

/-- A list is proper if each of its elements is. -/
theorem list {as : List α} (h : ∀ a ∈ as, Proper a) : Proper as := by
  intro m hm
  obtain ⟨a, ha, hm⟩ := List.mem_flatMap.mp hm
  exact h a ha m hm

/-- What may be lacking is proper if it is where it is there. -/
theorem option {o : Option α} (h : ∀ a ∈ o, Proper a) : Proper o := by
  cases o with
  | none => exact fun _ => nofun
  | some a => exact h a rfl

end Proper

/-- Whatever is made is proper. -/
abbrev MadeProper {α : Type} [HasMentions α] (result : Build α) : Prop := Ensures Proper result

/-- Whatever is made, if anything, is proper. -/
abbrev MadeProperOption {α : Type} [HasMentions α] (result : Build (Option α)) : Prop :=
  Ensures (fun o => ∀ a ∈ o, Proper a) result

/-- All the things that are made are proper. -/
abbrev MadeProperList {α : Type} [HasMentions α] (result : Build (List α)) : Prop :=
  Ensures (fun as => ∀ a ∈ as, Proper a) result

section Makers

variable {n : Node}

/-! ## Names and types -/

/-- A name that is read under a category is none of the words that the category rules out. -/
theorem Name.ofNode_spares (h : n.Heeds) (c : Category) :
    Ensures (fun name => c.Spares name.value) (Name.ofNode c n) := by
  refine (h.requireToken c).bind fun token spares => .pure ?_
  cases token with
  | none => exact c.spares_empty
  | some t => exact spares t rfl

/-- The words that are spared are those that no enumeration value may have as its name. -/
theorem allowed_of_spares_literals {name : String} (h : Category.nameButLiteral.Spares name) :
    name ≠ "true" ∧ name ≠ "false" ∧ name ≠ "null" :=
  ⟨h .trueWord (by decide), h .falseWord (by decide), h .nullWord (by decide)⟩

/-- And the one that no fragment may have. -/
theorem allowed_of_spares_on {name : String} (h : Category.nameButOn.Spares name) : name ≠ "on" :=
  h .on (by decide)

mutual

/-- What a mark is put on has none: it is a named type or a list. -/
theorem TypeReference.ofNode_proper (n : Node) : MadeProper (TypeReference.ofNode n) := by
  -- the mark is put on afterwards, so what is chosen has none yet
  have chosen : Ensures (fun o => ∀ t ∈ o, Proper t ∧ TypeReference.isNonNull t = false)
      (n.withChosen TypeReference.alternatives fun c _ =>
        match c.rule with
        | .namedType => some ((NamedType.ofNode c).map fun t => some (.named t))
        | .listType => some ((TypeReference.listOfNode c).map some)
        | _ => none) := by
    refine .withChosen fun c hc result made => ?_
    split at made
    · cases made
      exact Ensures.any.mapSome fun _ _ => ⟨fun _ => nofun, rfl⟩
    · cases made
      exact (TypeReference.listOfNode_proper c).some
    · cases made
  rw [TypeReference.ofNode]
  refine chosen.bind fun o unmarked => .pure ?_
  have missing : Proper (TypeReference.named .missing) := fun _ => nofun
  obtain ⟨proper, bare⟩ := getD_of_forall_mem unmarked ⟨missing, rfl⟩
  split
  · exact List.forall_mem_cons.mpr ⟨bare, proper⟩
  · exact proper
termination_by sizeOf n
decreasing_by exact Node.sizeOf_lt_of_mem_children ‹_›

/-- A list type is proper and has no mark of its own. -/
theorem TypeReference.listOfNode_proper (n : Node) :
    Ensures (fun t => Proper t ∧ TypeReference.isNonNull t = false)
      (TypeReference.listOfNode n) := by
  rw [TypeReference.listOfNode]
  refine .bind (.withRequired fun c hc _ => TypeReference.ofNode_proper c) fun o proper =>
    .pure ⟨?_, rfl⟩
  have missing : Proper (TypeReference.named .missing) := fun _ => nofun
  exact getD_of_forall_mem proper missing
termination_by sizeOf n
decreasing_by exact Node.sizeOf_lt_of_mem_children ‹_›

end

theorem TypeReference.within_proper (n : Node) : MadeProper (TypeReference.within n) := by
  refine .bind (.withRequired fun c _ _ => ofNode_proper c) fun o proper => .pure ?_
  have missing : Proper (TypeReference.named .missing) := fun _ => nofun
  exact getD_of_forall_mem proper missing

/-! ## Values -/

namespace Value

/-- A number or a string mentions no name. -/
theorem literal?_proper {v : Value} (h : literal? n = some v) : Proper v := by
  unfold literal? at h
  split at h
  · cases h
    exact fun _ => nofun
  · split at h
    · cases h
      exact fun _ => nofun
    · obtain ⟨t, -, rfl⟩ := Option.map_eq_some_iff.mp h
      exact fun _ => nofun

/-- A boolean mentions no name. -/
theorem booleanOfNode_proper : MadeProperOption (booleanOfNode n) := by
  have truth : ∀ b, ∀ v ∈ some (Value.boolean b n.span), Proper v := by
    intro b v same
    cases same
    exact fun _ => nofun
  unfold booleanOfNode
  split
  · exact .pure (truth true)
  · split
    · exact .pure (truth false)
    · exact .lack

theorem nullOfNode_proper : MadeProper (nullOfNode n) :=
  Ensures.any.bind fun _ _ => .pure fun _ => nofun

/-- An enumeration value is none of the words that stand for other values. -/
theorem enumOfNode_proper (h : n.Heeds) : MadeProperOption (enumOfNode n) := by
  refine (h.requireToken .nameButLiteral).bind fun token spares => .pure fun v hv => ?_
  obtain ⟨t, ht, rfl⟩ := Option.map_eq_some_iff.mp hv
  exact List.forall_mem_singleton.mpr (allowed_of_spares_literals (spares t ht))

/-- The mentions of values are those of the list. -/
theorem allMentions_eq (values : List Value) : allMentions values = GraphQL.mentions values := by
  induction values with
  | nil => rfl
  | cons v rest ih => exact congrArg (v.mentions ++ ·) ih

end Value

/-- The mentions of object fields are those of the list. -/
theorem ObjectField.allMentions_eq (fields : List ObjectField) :
    allMentions fields = GraphQL.mentions fields := by
  induction fields with
  | nil => rfl
  | cons f rest ih => exact congrArg (f.mentions ++ ·) ih

mutual

/-- A value mentions what one of its alternatives mentions, and each alternative is proper. -/
theorem Value.ofNode_proper (n : Node) (h : n.Heeds) : MadeProperOption (Value.ofNode n) := by
  rw [Value.ofNode]
  split
  · -- a number or a string
    rename_i v literal
    refine .pure fun w same => ?_
    cases same
    exact Value.literal?_proper literal
  · refine .withChosen fun c hc result made => ?_
    have below := h.child hc
    split at made
    · -- a variable
      cases made
      exact Ensures.any.mapSome fun _ _ _ => nofun
    · -- a boolean
      cases made
      exact Value.booleanOfNode_proper
    · -- null
      cases made
      exact Value.nullOfNode_proper.some
    · -- an enumeration value
      cases made
      exact Value.enumOfNode_proper below
    · -- a list
      cases made
      exact (Value.listOfNode_proper c below).some
    · -- an object
      cases made
      exact (Value.objectOfNode_proper c below).some
    · -- no alternative
      cases made
termination_by sizeOf n
decreasing_by all_goals exact Node.sizeOf_lt_of_mem_children ‹_›

/-- A list is proper if its values are. -/
theorem Value.listOfNode_proper (n : Node) (h : n.Heeds) : MadeProper (Value.listOfNode n) := by
  rw [Value.listOfNode]
  refine .bind (.withPresent fun c hc _ => Value.ofNode_proper c (h.child hc)) fun values proper =>
    .pure ?_
  show ∀ m ∈ Value.allMentions values, m.Allowed
  rw [Value.allMentions_eq]
  exact Proper.list proper
termination_by sizeOf n
decreasing_by exact Node.sizeOf_lt_of_mem_children ‹_›

/-- An object is proper if its fields are. -/
theorem Value.objectOfNode_proper (n : Node) (h : n.Heeds) :
    MadeProper (Value.objectOfNode n) := by
  rw [Value.objectOfNode]
  refine .bind (.withEach fun c hc _ => ObjectField.ofNode_proper c (h.child hc))
    fun fields proper => .pure ?_
  show ∀ m ∈ ObjectField.allMentions fields, m.Allowed
  rw [ObjectField.allMentions_eq]
  exact Proper.list proper
termination_by sizeOf n
decreasing_by exact Node.sizeOf_lt_of_mem_children ‹_›

/-- An object field is proper if its value is, for any word may name it. -/
theorem ObjectField.ofNode_proper (n : Node) (h : n.Heeds) : MadeProper (ObjectField.ofNode n) := by
  have value : Ensures (fun o => ∀ v ∈ o, ∀ w ∈ v, Proper w)
      (n.withRequired .value fun c _ => Value.ofNode c) :=
    .withRequired fun c hc _ => Value.ofNode_proper c (h.child hc)
  rw [ObjectField.ofNode]
  refine Ensures.any.bind fun _ _ => value.bind fun o proper => .pure ?_
  have missing : Proper Value.missing := fun _ => nofun
  exact getD_of_forall_mem (forall_mem_join proper) missing
termination_by sizeOf n
decreasing_by exact Node.sizeOf_lt_of_mem_children ‹_›

end

theorem Value.within_proper (h : n.Heeds) : MadeProperOption (Value.within n) :=
  .bind (.withRequired fun c hc _ => ofNode_proper c (h.child hc)) fun _ proper =>
    .pure (forall_mem_join proper)

/-! ## Arguments and directives -/

/-- What stands in a list of its own below a node. -/
theorem listWithin_proper {α : Type} [HasMentions α] {f : Node → Build (List α)} (h : n.Heeds)
    (r : Rule) (hf : ∀ {c : Node}, c.Heeds → MadeProperList (f c)) :
    MadeProper (listWithin n r f) := by
  intro as made
  refine Proper.list (Ensures.listWithin (fun c held => ?_) as made)
  exact hf (h.child (Node.mem_children_of_mem_nodes held))

/-- An argument is proper if its value is, for any word may name it. -/
theorem Argument.ofNode_proper (h : n.Heeds) : MadeProper (Argument.ofNode n) := by
  refine Ensures.any.bind fun _ _ => (Value.within_proper h).bind fun o proper => .pure ?_
  have missing : Proper Value.missing := fun _ => nofun
  exact getD_of_forall_mem proper missing

theorem Argument.allWithin_proper (h : n.Heeds) : MadeProperList (Argument.allWithin n) :=
  .withEach fun _ hc _ => ofNode_proper (h.child hc)

/-- A directive is proper if its arguments are. -/
theorem Directive.ofNode_proper (h : n.Heeds) : MadeProper (Directive.ofNode n) :=
  Ensures.any.bind fun _ _ =>
    (listWithin_proper h .arguments Argument.allWithin_proper).bind fun _ proper => .pure proper

theorem Directive.allWithin_proper (h : n.Heeds) : MadeProperList (Directive.allWithin n) :=
  .withEach fun _ hc _ => ofNode_proper (h.child hc)

theorem Directive.attached_proper (h : n.Heeds) : MadeProper (Directive.attached n) :=
  listWithin_proper h .directives allWithin_proper

/-! ## Selections -/

/-- A fragment is not named by the word that begins a condition. -/
theorem fragmentName_ne_on (h : n.Heeds) :
    Ensures (fun name => Name.value name ≠ "on") (fragmentName n) := by
  have name : Ensures (fun o => ∀ name ∈ o, Category.nameButOn.Spares (Name.value name))
      (n.withRequired .fragmentName fun c _ => Name.ofNode Category.nameButOn c) :=
    .withRequired fun _ hc _ => Name.ofNode_spares (h.child hc) .nameButOn
  refine name.bind fun o spares => .pure ?_
  have missing : Category.nameButOn.Spares Name.missing.value := Category.spares_empty _
  exact allowed_of_spares_on (getD_of_forall_mem spares missing)

/-- A spread names a fragment, and no fragment is named `on`. -/
theorem FragmentSpread.ofNode_proper (h : n.Heeds) : MadeProper (FragmentSpread.ofNode n) :=
  (fragmentName_ne_on h).bind fun _ named => (Directive.attached_proper h).bind fun _ attached =>
    .pure (List.forall_mem_cons.mpr ⟨named, attached⟩)

/-- The mentions of selections are those of the list. -/
theorem Selection.allMentions_eq (selections : List Selection) :
    allMentions selections = GraphQL.mentions selections := by
  induction selections with
  | nil => rfl
  | cons s rest ih => exact congrArg (s.mentions ++ ·) ih

/-- The mentions of a selection set that may be lacking are those of the option. -/
theorem SelectionSet.optionMentions_eq (set : Option SelectionSet) :
    optionMentions set = GraphQL.mentions set := by
  cases set <;> rfl

theorem SelectionSet.missing_proper : Proper SelectionSet.missing := fun _ => nofun

mutual

/-- A selection is proper whichever alternative it is. -/
theorem Selection.ofNode_proper (n : Node) (h : n.Heeds) :
    MadeProperOption (Selection.ofNode n) := by
  rw [Selection.ofNode]
  refine .withChosen fun c hc result made => ?_
  have below := h.child hc
  split at made
  · cases made
    exact (Field.ofNode_proper c below).mapSome fun _ => id
  · cases made
    exact (FragmentSpread.ofNode_proper below).mapSome fun _ => id
  · cases made
    exact (InlineFragment.ofNode_proper c below).mapSome fun _ => id
  · cases made
termination_by sizeOf n
decreasing_by all_goals exact Node.sizeOf_lt_of_mem_children ‹_›

/-- A field is proper if its arguments, directives and selections are. -/
theorem Field.ofNode_proper (n : Node) (h : n.Heeds) : MadeProper (Field.ofNode n) := by
  have arguments := listWithin_proper h .arguments Argument.allWithin_proper
  have directives := Directive.attached_proper h
  have selections : MadeProperOption
      (n.withFirst .selectionSet fun c _ => SelectionSet.ofNode c) :=
    .withFirst fun c hc _ => SelectionSet.ofNode_proper c (h.child hc)
  rw [Field.ofNode]
  refine Ensures.any.bind fun _ _ => Ensures.any.bind fun _ _ => arguments.bind fun _ given =>
    directives.bind fun _ attached => selections.bind fun selectionSet proper => .pure ?_
  have selected : ∀ m ∈ SelectionSet.optionMentions selectionSet, m.Allowed := by
    rw [SelectionSet.optionMentions_eq]
    exact Proper.option proper
  exact allowed_append (allowed_append given attached) selected
termination_by sizeOf n
decreasing_by exact Node.sizeOf_lt_of_mem_children ‹_›

/-- An inline fragment is proper if its directives and selections are. -/
theorem InlineFragment.ofNode_proper (n : Node) (h : n.Heeds) :
    MadeProper (InlineFragment.ofNode n) := by
  have directives := Directive.attached_proper h
  have selections : MadeProperOption
      (n.withRequired .selectionSet fun c _ => SelectionSet.ofNode c) :=
    .withRequired fun c hc _ => SelectionSet.ofNode_proper c (h.child hc)
  rw [InlineFragment.ofNode]
  refine Ensures.any.bind fun _ _ => directives.bind fun _ attached =>
    selections.bind fun selectionSet proper => .pure ?_
  have selected : Proper (selectionSet.getD .missing) :=
    getD_of_forall_mem proper SelectionSet.missing_proper
  exact allowed_append attached selected
termination_by sizeOf n
decreasing_by exact Node.sizeOf_lt_of_mem_children ‹_›

/-- A selection set is proper if its selections are. -/
theorem SelectionSet.ofNode_proper (n : Node) (h : n.Heeds) :
    MadeProper (SelectionSet.ofNode n) := by
  rw [SelectionSet.ofNode]
  refine .bind (.withPresent fun c hc _ => Selection.ofNode_proper c (h.child hc))
    fun selections proper => .pure ?_
  show ∀ m ∈ Selection.allMentions selections, m.Allowed
  rw [Selection.allMentions_eq]
  exact Proper.list proper
termination_by sizeOf n
decreasing_by exact Node.sizeOf_lt_of_mem_children ‹_›

end

theorem SelectionSet.within_proper (h : n.Heeds) : MadeProper (SelectionSet.within n) :=
  .bind (.withRequired fun c hc _ => ofNode_proper c (h.child hc)) fun _ proper =>
    .pure (getD_of_forall_mem proper missing_proper)

/-! ## Operations and fragments -/

/-- A given default is proper, or none is given. -/
theorem givenDefault_proper (h : n.Heeds) : MadeProper (givenDefault n) :=
  .bind (.withFirst fun _ hc _ => Value.within_proper (h.child hc)) fun _ proper =>
    .pure (Proper.option (forall_mem_join proper))

/-- A variable definition is proper if its type and its default are. -/
theorem VariableDefinition.ofNode_proper (h : n.Heeds) :
    MadeProper (VariableDefinition.ofNode n) := by
  have type := TypeReference.within_proper n
  have default := givenDefault_proper h
  exact Ensures.any.bind fun _ _ => type.bind fun _ typed => default.bind fun _ given =>
    .pure (allowed_append typed given)

theorem VariableDefinition.allWithin_proper (h : n.Heeds) :
    MadeProperList (VariableDefinition.allWithin n) :=
  .withEach fun _ hc _ => ofNode_proper (h.child hc)

/-- An operation is proper if its variable definitions, directives and selections are. -/
theorem OperationDefinition.ofNode_proper (h : n.Heeds) :
    MadeProper (OperationDefinition.ofNode n) := by
  have declared := listWithin_proper h .variableDefinitions VariableDefinition.allWithin_proper
  have directives := Directive.attached_proper h
  have selections := SelectionSet.within_proper h
  exact Ensures.any.bind fun _ _ => declared.bind fun _ declares =>
    directives.bind fun _ attached => selections.bind fun _ selected =>
      .pure (allowed_append (allowed_append declares attached) selected)

/-- A fragment is not named `on`, and is proper if its variable definitions, directives and
    selections are. -/
theorem FragmentDefinition.ofNode_proper (h : n.Heeds) :
    MadeProper (FragmentDefinition.ofNode n) := by
  have name := fragmentName_ne_on h
  have declared : Ensures (fun o => ∀ vs ∈ o, ∀ v ∈ vs, Proper v)
      (n.withFirst .variableDefinitions fun c _ => VariableDefinition.allWithin c) :=
    .withFirst fun _ hc _ => VariableDefinition.allWithin_proper (h.child hc)
  have directives := Directive.attached_proper h
  have selections := SelectionSet.within_proper h
  refine name.bind fun _ named => declared.bind fun _ declares =>
    Ensures.any.bind fun _ _ => directives.bind fun _ attached =>
    selections.bind fun _ selected => .pure ?_
  have variablesProper := Proper.option fun vs hvs => Proper.list (declares vs hvs)
  exact List.forall_mem_cons.mpr
    ⟨named, allowed_append (allowed_append variablesProper attached) selected⟩

/-! ## Parts of type definitions -/

/-- An input value is proper if its type, default and directives are. -/
theorem InputValueDefinition.ofNode_proper (h : n.Heeds) :
    MadeProper (InputValueDefinition.ofNode n) := by
  have type := TypeReference.within_proper n
  have default := givenDefault_proper h
  have directives := Directive.attached_proper h
  exact Ensures.any.bind fun _ _ => Ensures.any.bind fun _ _ => type.bind fun _ typed =>
    default.bind fun _ given => directives.bind fun _ attached =>
      .pure (allowed_append (allowed_append typed given) attached)

theorem InputValueDefinition.allWithin_proper (h : n.Heeds) :
    MadeProperList (InputValueDefinition.allWithin n) :=
  .withEach fun _ hc _ => ofNode_proper (h.child hc)

/-- A field definition is proper if its parameters, type and directives are. -/
theorem FieldDefinition.ofNode_proper (h : n.Heeds) : MadeProper (FieldDefinition.ofNode n) := by
  have arguments := listWithin_proper h .argumentsDefinition InputValueDefinition.allWithin_proper
  have type := TypeReference.within_proper n
  have directives := Directive.attached_proper h
  exact Ensures.any.bind fun _ _ => Ensures.any.bind fun _ _ => arguments.bind fun _ takes =>
    type.bind fun _ typed => directives.bind fun _ attached =>
      .pure (allowed_append (allowed_append takes typed) attached)

theorem FieldDefinition.allWithin_proper (h : n.Heeds) :
    MadeProperList (FieldDefinition.allWithin n) :=
  .withEach fun _ hc _ => ofNode_proper (h.child hc)

/-- An enumeration value is not defined under one of the words that stand for other values. -/
theorem EnumValueDefinition.ofNode_proper (h : n.Heeds) :
    MadeProper (EnumValueDefinition.ofNode n) := by
  have name : Ensures (fun o => ∀ name ∈ o, Category.nameButLiteral.Spares (Name.value name))
      (n.withRequired .enumValue fun c _ => Name.ofNode Category.nameButLiteral c) :=
    .withRequired fun _ hc _ => Name.ofNode_spares (h.child hc) .nameButLiteral
  have directives := Directive.attached_proper h
  refine name.bind fun _ spares => Ensures.any.bind fun _ _ => directives.bind fun _ attached =>
    .pure (List.forall_mem_cons.mpr ⟨?_, attached⟩)
  have missing : Category.nameButLiteral.Spares Name.missing.value := Category.spares_empty _
  exact allowed_of_spares_literals (getD_of_forall_mem spares missing)

theorem EnumValueDefinition.allWithin_proper (h : n.Heeds) :
    MadeProperList (EnumValueDefinition.allWithin n) :=
  .withEach fun _ hc _ => ofNode_proper (h.child hc)

/-! ## Type systems -/

theorem SchemaDefinition.ofNode_proper (h : n.Heeds) : MadeProper (SchemaDefinition.ofNode n) :=
  (Directive.attached_proper h).bind fun _ attached => Ensures.any.bind fun _ _ => .pure attached

/-- A schema extension is proper if its directives are. -/
theorem SchemaDefinition.extensionOfNode_proper (h : n.Heeds) :
    MadeProper (SchemaDefinition.extensionOfNode n) :=
  (Directive.attached_proper h).bind fun _ attached => Ensures.any.bind fun _ _ => .pure attached

/-- The directives of a type and its members, of whichever sort it is. -/
theorem TypeShape.ofNode_proper (h : n.Heeds) (sort : TypeSort) :
    Ensures (fun made => ∀ m ∈ mentions made.1 ++ mentions made.2, m.Allowed)
      (TypeShape.ofNode n sort) := by
  have directives := Directive.attached_proper h
  have fields := listWithin_proper h .fieldsDefinition FieldDefinition.allWithin_proper
  have none : ∀ m ∈ ([] : List Mention), m.Allowed := fun _ => nofun
  -- the sorts differ in the lists of their members
  cases sort with
  | scalar => exact directives.bind fun _ attached => .pure (allowed_append attached none)
  | object =>
    exact Ensures.any.bind fun _ _ => directives.bind fun _ attached =>
      fields.bind fun _ members => .pure (allowed_append attached members)
  | interface =>
    exact directives.bind fun _ attached => fields.bind fun _ members =>
      .pure (allowed_append attached members)
  | union =>
    exact directives.bind fun _ attached => Ensures.any.bind fun _ _ =>
      .pure (allowed_append attached none)
  | enum =>
    have values := listWithin_proper h .enumValuesDefinition EnumValueDefinition.allWithin_proper
    exact directives.bind fun _ attached => values.bind fun _ members =>
      .pure (allowed_append attached members)
  | inputObject =>
    have inputs := listWithin_proper h .inputFieldsDefinition InputValueDefinition.allWithin_proper
    exact directives.bind fun _ attached => inputs.bind fun _ members =>
      .pure (allowed_append attached members)

/-- A type definition of any sort is proper. -/
theorem TypeDefinition.ofNode_proper (h : n.Heeds) (sort : TypeSort) :
    MadeProper (TypeDefinition.ofNode sort n) :=
  Ensures.any.bind fun _ _ => Ensures.any.bind fun _ _ =>
    (TypeShape.ofNode_proper h sort).bind fun ⟨_, _⟩ proper => .pure proper

/-- A type extension of any sort is proper. -/
theorem TypeExtension.ofNode_proper (h : n.Heeds) (sort : TypeSort) :
    MadeProper (TypeExtension.ofNode sort n) :=
  Ensures.any.bind fun _ _ =>
    (TypeShape.ofNode_proper h sort).bind fun ⟨_, _⟩ proper => .pure proper

/-- A directive definition is proper if its parameters are. -/
theorem DirectiveDefinition.ofNode_proper (h : n.Heeds) :
    MadeProper (DirectiveDefinition.ofNode n) := by
  have arguments := listWithin_proper h .argumentsDefinition InputValueDefinition.allWithin_proper
  exact Ensures.any.bind fun _ _ => Ensures.any.bind fun _ _ => arguments.bind fun _ takes =>
    Ensures.any.bind fun _ _ => .pure takes

/-! ## Definitions -/

namespace Definition

/-- A type definition is proper whichever sort its node has. -/
theorem typeOfNode_proper (h : n.Heeds) : MadeProperOption (typeOfNode n) := by
  refine .withChosen fun c hc result made => ?_
  obtain ⟨sort, -, rfl⟩ := Option.map_eq_some_iff.mp made
  exact (TypeDefinition.ofNode_proper (h.child hc) sort).mapSome fun _ => id

/-- So is a type extension. -/
theorem typeExtensionOfNode_proper (h : n.Heeds) : MadeProperOption (typeExtensionOfNode n) := by
  refine .withChosen fun c hc result made => ?_
  obtain ⟨sort, -, rfl⟩ := Option.map_eq_some_iff.mp made
  exact (TypeExtension.ofNode_proper (h.child hc) sort).mapSome fun _ => id

/-- An executable definition is an operation or a fragment, and each is proper. -/
theorem executableOfNode_proper (h : n.Heeds) : MadeProperOption (executableOfNode n) := by
  refine .withChosen fun c hc result made => ?_
  have below := h.child hc
  split at made
  · cases made
    exact (OperationDefinition.ofNode_proper below).mapSome fun _ => id
  · cases made
    exact (FragmentDefinition.ofNode_proper below).mapSome fun _ => id
  · cases made

/-- A definition of the type system is a schema, a type or a directive, and each is proper. -/
theorem typeSystemOfNode_proper (h : n.Heeds) : MadeProperOption (typeSystemOfNode n) := by
  refine .withChosen fun c hc result made => ?_
  have below := h.child hc
  split at made
  · cases made
    exact (SchemaDefinition.ofNode_proper below).mapSome fun _ => id
  · cases made
    exact typeOfNode_proper below
  · cases made
    exact (DirectiveDefinition.ofNode_proper below).mapSome fun _ => id
  · cases made

/-- An extension is one of a schema or of a type, and each is proper. -/
theorem typeSystemExtensionOfNode_proper (h : n.Heeds) :
    MadeProperOption (typeSystemExtensionOfNode n) := by
  refine .withChosen fun c hc result made => ?_
  have below := h.child hc
  split at made
  · cases made
    exact (SchemaDefinition.extensionOfNode_proper below).mapSome fun _ => id
  · cases made
    exact typeExtensionOfNode_proper below
  · cases made

/-- A definition is proper whichever alternative it is. -/
theorem ofNode_proper (h : n.Heeds) : MadeProperOption (ofNode n) := by
  refine .withChosen fun c hc result made => ?_
  have below := h.child hc
  split at made
  · cases made
    exact executableOfNode_proper below
  · cases made
    exact typeSystemOfNode_proper below
  · cases made
    exact typeSystemExtensionOfNode_proper below
  · cases made

end Definition

/-- A document is proper if its definitions are. -/
theorem Document.ofTree_proper (h : n.Heeds) : MadeProper (Document.ofTree n) := by
  unfold Document.ofTree
  split
  · exact .bind (.withPresent fun _ hc _ => Definition.ofNode_proper (h.child hc)) fun _ proper =>
      .pure (Proper.list proper)
  · exact fun _ => nofun

end Makers

/-! ## Documents of texts -/

/-- Reserved words are not let through.  Every text, with mistakes or without, is read as a document
    in which no enumeration value, used or defined, is named `true`, `false` or `null`, no fragment,
    used or defined, is named `on`, and no type with an exclamation mark stands directly under
    another one. -/
theorem reserved_words_kept_out :
    ∃ g, Standard.grammar? = .ok g ∧ ∀ (source : String) (file : Option String),
      ∃ document, (g.readSource source file).document = .ok document ∧
        ∀ m ∈ mentions document, m.Allowed := by
  refine ⟨Standard.grammar, Standard.grammar?_eq, fun source file => ?_⟩
  obtain ⟨tree, htree, root, conforms⟩ :=
    exists_conforming_tree Standard.finish_eq .document (Scan.ofSource source file).tokens
  obtain ⟨tree', htree', met⟩ :=
    exists_metAmong Standard.grammar .document (Scan.ofSource source file).tokens
  obtain rfl : tree = tree' := Option.some.inj (htree.symm.trans htree')
  obtain ⟨document, made⟩ := Document.ofTree_succeeds ⟨root, conforms⟩
  refine ⟨document, ?_, Document.ofTree_proper met.heeds document made⟩
  rw [Reading.document, tree_readSource, htree]
  exact made

end GraphQL
