/-
  The parts of what is made lie inside it.

  A maker takes the place of what it makes from its node or from one of the tokens of the node, and
  the parts from the children of the node, through as many layers as the grammar has.  In a tree
  whatever a node holds lies inside the node (`Node.Encloses`).  So what is made of a node lies inside
  the node with all its parts, and they are nested (`Nests`); a part that is made of a child lies
  inside the child, and so inside the node.

  The first part has one lemma for each way in which makers look into their nodes; then follow the
  makers, in the order in which they are defined.
-/
import GraphQL.Proofs.Constancy
import GraphQL.Proofs.Extents

namespace GraphQL

/-! ## Extents in a place -/

/-- Extents that are nested and lie inside a place. -/
def Fit (place : ByteSpan) (es : List Extent) : Prop := ∀ e ∈ es, e.Nested ∧ e.loc.Inside place

/-- Something lies inside a place with all its parts, and they are nested. -/
def Nests {α : Type} [HasExtents α] (place : ByteSpan) (a : α) : Prop := Fit place (extents a)

namespace Fit

variable {place outer : ByteSpan} {es fs : List Extent}

theorem nil : Fit place [] := fun _ => nofun

/-- Parts next to each other that lie inside a place. -/
theorem append (h : Fit place es) (h' : Fit place fs) : Fit place (es ++ fs) := by
  intro e he
  rcases List.mem_append.mp he with he | he
  · exact h e he
  · exact h' e he

theorem left (h : Fit place (es ++ fs)) : Fit place es :=
  fun e he => h e (List.mem_append_left _ he)

theorem right (h : Fit place (es ++ fs)) : Fit place fs :=
  fun e he => h e (List.mem_append_right _ he)

theorem mono (h : Fit place es) (inside : place.Inside outer) : Fit outer es :=
  fun e he => ⟨(h e he).1, (h e he).2.trans inside⟩

/-- What holds parts that lie inside its place. -/
theorem whole (h : Fit place es) : Fit place [⟨place, es⟩] := by
  intro e he
  obtain rfl := List.mem_singleton.mp he
  exact ⟨Extent.nested_mk h, .refl place⟩

/-- What has no parts. -/
theorem leaf {loc : ByteSpan} (inside : loc.Inside place) : Fit place [⟨loc, []⟩] :=
  nil.whole.mono inside

/-- What stands for something that is lacking. -/
theorem missing : Fit place [⟨.nowhere, []⟩] := leaf (ByteSpan.nowhere_inside _)

end Fit

namespace Nests

variable {α β : Type} [HasExtents α] [HasExtents β] {place : ByteSpan}

/-- A list lies inside a place if each of its elements does. -/
theorem iff_forall_list {as : List α} : Nests place as ↔ ∀ a ∈ as, Nests place a := by
  constructor
  · intro h a ha e he
    exact h e (List.mem_flatMap.mpr ⟨a, ha, he⟩)
  · intro h e he
    obtain ⟨a, ha, he⟩ := List.mem_flatMap.mp he
    exact h a ha e he

/-- What may be lacking lies inside a place if it does where it is there. -/
theorem iff_forall_option {o : Option α} : Nests place o ↔ ∀ a ∈ o, Nests place a := by
  cases o with
  | none => exact ⟨fun _ _ => nofun, fun _ => .nil⟩
  | some a =>
    constructor
    · intro h b hb
      cases hb
      exact h
    · exact fun h => h a rfl

theorem getD {o : Option α} {default : α} (h : Nests place o) (hd : Nests place default) :
    Nests place (o.getD default) := getD_of_forall_mem (iff_forall_option.mp h) hd

/-- Two ways of being lacking are one. -/
theorem join {o : Option (Option α)} (h : Nests place o) : Nests place o.join :=
  iff_forall_option.mpr
    (forall_mem_join fun v hv => iff_forall_option.mp (iff_forall_option.mp h v hv))

end Nests

/-! ## Looking into nodes -/

/-- At every level, what a node holds lies inside the node. -/
def Node.Encloses (n : Node) : Prop :=
  ∀ m : Node, m.Within n → ∀ label es, (label, es) ∈ m.groups → ∀ e ∈ es, e.bytes.Inside m.span

/-- A tree that was read from tokens in a line encloses what it holds. -/
theorem Node.Spreads.encloses {n : Node} {ts : List Token} (h : n.Spreads ts) (lined : Lined ts) :
    n.Encloses := by
  intro m within label es hg e he
  obtain ⟨us, sub, below⟩ := h.within within
  exact below.bytes_inside (lined.sublist sub) hg he

/-- Whatever is made of a node lies inside the node with all its parts. -/
def MadeInside {α : Type} [HasExtents α] (n : Node) (result : Build α) : Prop :=
  Ensures (Nests n.span) result

namespace Node.Encloses

variable {α : Type} [HasExtents α] {n c : Node} {r : Rule} {demand : TokenKind}

theorem child (h : n.Encloses) (hc : c ∈ n.children) : c.Encloses :=
  fun m within => h m (.step hc within)

/-- The place of a child lies inside that of its node. -/
theorem span_child (h : n.Encloses) (hc : c ∈ n.children) : c.span.Inside n.span := by
  obtain ⟨⟨label, es⟩, hg, he⟩ := List.mem_flatMap.mp hc
  exact h n (.root n) label es hg (.node c) (mem_filterMap_node?_iff.mp he)

/-- The place of a token lies inside that of the node that holds it. -/
theorem bytes_token (h : n.Encloses) {t : Token} (ht : t ∈ n.labelledTokens) :
    t.bytes.Inside n.span := by
  obtain ⟨⟨label, es⟩, hg, he⟩ := List.mem_flatMap.mp ht
  cases label with
  | rule r => cases he
  | token demand =>
    obtain ⟨e, hmem, same⟩ := List.mem_filterMap.mp he
    cases e with
    | node c => cases same
    | token t' =>
      cases same
      exact h n (.root n) _ es hg _ hmem

/-- So does the place of the token that met a demand. -/
theorem bytes_token? (h : n.Encloses) {t : Token} (ht : n.token? demand = some t) :
    t.bytes.Inside n.span :=
  h.bytes_token (mem_labelledTokens_of_mem_tokens (List.mem_of_head? ht))

/-- A required token lies inside the node, if the node has it. -/
theorem requireToken (h : n.Encloses) :
    Ensures (fun o => ∀ t ∈ o, t.bytes.Inside n.span) (n.requireToken demand) := by
  unfold Node.requireToken
  split
  · rename_i t found
    refine .pure fun u hu => ?_
    cases hu
    exact h.bytes_token? found
  · exact .lack

/-- What is made of a child lies inside the node too. -/
theorem madeInside (h : n.Encloses) (hc : c ∈ n.children) {result : Build α}
    (made : MadeInside c result) : Ensures (Nests n.span) result :=
  fun a ha => Fit.mono (made a ha) (h.span_child hc)

/-- For a gap nothing is made, and nothing lies inside any place. -/
theorem lack (gap : Gap) : MadeInside n (n.lack gap : Build (Option α)) := by
  intro o made
  exact Nests.iff_forall_option.mpr (Ensures.lack o made)

/-- What may be missing lies inside the node if whatever is there does. -/
theorem madeInside_option {result : Build (Option α)}
    (made : Ensures (fun o => ∀ a ∈ o, Nests n.span a) result) : MadeInside n result :=
  fun o eq => Nests.iff_forall_option.mpr (made o eq)

/-- What is made of the first child lies inside the node, as the child does. -/
theorem withFirst (h : n.Encloses) {f : (c : Node) → c ∈ n.children → Build α}
    (hf : ∀ c hc, c.Encloses → MadeInside c (f c hc)) : MadeInside n (n.withFirst r f) :=
  madeInside_option (.withFirst fun c hc _ => h.madeInside hc (hf c hc (h.child hc)))

/-- So does what is made of a required child. -/
theorem withRequired (h : n.Encloses) {f : (c : Node) → c ∈ n.children → Build α}
    (hf : ∀ c hc, c.Encloses → MadeInside c (f c hc)) : MadeInside n (n.withRequired r f) :=
  madeInside_option (.withRequired fun c hc _ => h.madeInside hc (hf c hc (h.child hc)))

/-- So does each thing that is made of a child. -/
theorem withEach (h : n.Encloses) {f : (c : Node) → c ∈ n.children → Build α}
    (hf : ∀ c hc, c.Encloses → MadeInside c (f c hc)) : MadeInside n (n.withEach r f) := by
  intro as made
  refine Nests.iff_forall_list.mpr (Ensures.withEach (fun c hc _ => ?_) as made)
  exact h.madeInside hc (hf c hc (h.child hc))

/-- And so do those that are there, where some may be lacking. -/
theorem withPresent (h : n.Encloses) {f : (c : Node) → c ∈ n.children → Build (Option α)}
    (hf : ∀ c hc, c.Encloses → MadeInside c (f c hc)) : MadeInside n (n.withPresent r f) := by
  intro as made
  refine Nests.iff_forall_list.mpr (Ensures.withPresent (fun c hc _ => ?_) as made)
  intro o found
  exact Nests.iff_forall_option.mp (h.madeInside hc (hf c hc (h.child hc)) o found)

/-- What is made of a chosen child lies inside the node, whichever alternative it is. -/
theorem withChosen (h : n.Encloses) {alternatives : List Label}
    {f : (c : Node) → c ∈ n.children → Option (Build (Option α))}
    (hf : ∀ c hc, c.Encloses → ∀ result ∈ f c hc, MadeInside c result) :
    MadeInside n (n.withChosen alternatives f) := by
  refine madeInside_option (.withChosen fun c hc result chosen => ?_)
  intro o found
  exact Nests.iff_forall_option.mp (h.madeInside hc (hf c hc (h.child hc) result chosen) o found)

end Node.Encloses

section Makers

variable {n : Node}

/-! ## Names and types -/

theorem Name.ofToken_nests {t : Token} (inside : t.bytes.Inside n.span) :
    Nests n.span (Name.ofToken t) := .leaf inside

theorem Name.missing_nests {place : ByteSpan} : Nests place Name.missing := Fit.missing

/-- A name has the place of its token. -/
theorem Name.ofNode_nests (h : n.Encloses) (demand : TokenKind) :
    MadeInside n (Name.ofNode demand n) := by
  refine h.requireToken.bind fun token inside => .pure ?_
  cases token with
  | none => exact missing_nests
  | some t => exact ofToken_nests (inside t rfl)

theorem Variable.ofNode_nests (h : n.Encloses) : MadeInside n (Variable.ofNode n) :=
  (Name.ofNode_nests h _).bind fun _ name => .pure (Fit.whole name)

theorem NamedType.ofNode_nests (h : n.Encloses) : MadeInside n (NamedType.ofNode n) :=
  (Name.ofNode_nests h _).bind fun _ name => .pure (Fit.whole name)

theorem NamedType.missing_nests {place : ByteSpan} : Nests place NamedType.missing :=
  Fit.mono (Fit.whole Name.missing_nests) (ByteSpan.nowhere_inside _)

theorem NamedType.within_nests (h : n.Encloses) : MadeInside n (NamedType.within n) :=
  (h.withRequired fun _ _ => ofNode_nests).bind fun _ type => .pure (type.getD missing_nests)

theorem NamedType.allWithin_nests (h : n.Encloses) : MadeInside n (NamedType.allWithin n) :=
  h.withEach fun _ _ => ofNode_nests

mutual

/-- A type has the place of its node, and the type that it is the mark or the list of lies
    inside. -/
theorem TypeReference.ofNode_nests (n : Node) (h : n.Encloses) :
    MadeInside n (TypeReference.ofNode n) := by
  rw [TypeReference.ofNode]
  refine .bind (h.withChosen fun c hc below result chosen => ?_) fun inner nests => .pure ?_
  · split at chosen
    · cases chosen
      exact (NamedType.ofNode_nests below).map fun _ => id
    · cases chosen
      exact (TypeReference.listOfNode_nests c below).map fun _ => id
    · cases chosen
  · have made : Nests n.span (inner.getD (.named .missing)) := nests.getD NamedType.missing_nests
    split
    · exact Fit.whole made
    · exact made
termination_by sizeOf n
decreasing_by exact Node.sizeOf_lt_of_mem_children ‹_›

/-- A list type has the place of its node, and its element type lies inside. -/
theorem TypeReference.listOfNode_nests (n : Node) (h : n.Encloses) :
    MadeInside n (TypeReference.listOfNode n) := by
  rw [TypeReference.listOfNode]
  refine (h.withRequired fun c hc => TypeReference.ofNode_nests c).bind fun element nests =>
    .pure ?_
  have made : Nests n.span (element.getD (.named .missing)) := nests.getD NamedType.missing_nests
  exact Fit.whole made
termination_by sizeOf n
decreasing_by exact Node.sizeOf_lt_of_mem_children ‹_›

end

theorem TypeReference.within_nests (h : n.Encloses) : MadeInside n (TypeReference.within n) :=
  (h.withRequired fun c _ => ofNode_nests c).bind fun _ type =>
    .pure (type.getD NamedType.missing_nests)

/-! ## Values -/

theorem StringValue.ofToken_nests {t : Token} (inside : t.bytes.Inside n.span) :
    Nests n.span (StringValue.ofToken t) := .leaf inside

namespace Value

theorem missing_nests {place : ByteSpan} : Nests place Value.missing := Fit.missing

/-- A number or a string has the place of its token. -/
theorem literal?_nests (h : n.Encloses) : Nests n.span (literal? n) := by
  unfold literal?
  split
  · rename_i t found
    exact Fit.leaf (h.bytes_token? found)
  · split
    · rename_i t found
      exact Fit.leaf (h.bytes_token? found)
    · cases found : n.token? Category.string with
      | none => exact Fit.nil
      | some t => exact StringValue.ofToken_nests (h.bytes_token? found)

/-- A boolean has the place of its node. -/
theorem booleanOfNode_nests : MadeInside n (booleanOfNode n) := by
  unfold booleanOfNode
  split
  · exact .pure Fit.nil.whole
  · split
    · exact .pure Fit.nil.whole
    · exact Node.Encloses.lack _

theorem nullOfNode_nests : MadeInside n (nullOfNode n) :=
  Ensures.any.bind fun _ _ => .pure Fit.nil.whole

/-- An enumeration value has the place of its token. -/
theorem enumOfNode_nests (h : n.Encloses) : MadeInside n (enumOfNode n) := by
  refine h.requireToken.bind fun token inside => .pure ?_
  cases token with
  | none => exact Fit.nil
  | some t => exact Fit.leaf (inside t rfl)

/-- The extents of values are those of the list. -/
theorem allExtents_eq (values : List Value) : allExtents values = GraphQL.extents values := by
  induction values with
  | nil => rfl
  | cons v rest ih => exact congrArg (v.extents ++ ·) ih

end Value

/-- The extents of object fields are those of the list. -/
theorem ObjectField.allExtents_eq (fields : List ObjectField) :
    allExtents fields = GraphQL.extents fields := by
  induction fields with
  | nil => rfl
  | cons f rest ih => exact congrArg (f.extents ++ ·) ih

mutual

/-- A value is a literal of its node or is made of one of its children, and it lies inside the node
    either way. -/
theorem Value.ofNode_nests (n : Node) (h : n.Encloses) : MadeInside n (Value.ofNode n) := by
  rw [Value.ofNode]
  have literal := Value.literal?_nests h
  split
  · -- a number or a string
    rename_i v found
    rw [found] at literal
    exact .pure literal
  · refine h.withChosen fun c hc below result chosen => ?_
    split at chosen
    · -- a variable
      cases chosen
      exact (Variable.ofNode_nests below).map fun _ => id
    · -- a boolean
      cases chosen
      exact Value.booleanOfNode_nests
    · -- null
      cases chosen
      exact Value.nullOfNode_nests.map fun _ => id
    · -- an enumeration value
      cases chosen
      exact Value.enumOfNode_nests below
    · -- a list
      cases chosen
      exact (Value.listOfNode_nests c below).map fun _ => id
    · -- an object
      cases chosen
      exact (Value.objectOfNode_nests c below).map fun _ => id
    · -- no alternative
      cases chosen
termination_by sizeOf n
decreasing_by all_goals exact Node.sizeOf_lt_of_mem_children ‹_›

/-- A list has the place of its node, and its values lie inside. -/
theorem Value.listOfNode_nests (n : Node) (h : n.Encloses) :
    MadeInside n (Value.listOfNode n) := by
  rw [Value.listOfNode]
  refine (h.withPresent fun c hc => Value.ofNode_nests c).bind fun values nests => .pure ?_
  have made : Fit n.span (Value.allExtents values) := Value.allExtents_eq values ▸ nests
  exact made.whole
termination_by sizeOf n
decreasing_by exact Node.sizeOf_lt_of_mem_children ‹_›

/-- An object has the place of its node, and its fields lie inside. -/
theorem Value.objectOfNode_nests (n : Node) (h : n.Encloses) :
    MadeInside n (Value.objectOfNode n) := by
  rw [Value.objectOfNode]
  refine (h.withEach fun c hc => ObjectField.ofNode_nests c).bind fun fields nests => .pure ?_
  have made : Fit n.span (ObjectField.allExtents fields) := ObjectField.allExtents_eq fields ▸ nests
  exact made.whole
termination_by sizeOf n
decreasing_by exact Node.sizeOf_lt_of_mem_children ‹_›

/-- An object field has the place of its node, and its name and its value lie inside. -/
theorem ObjectField.ofNode_nests (n : Node) (h : n.Encloses) :
    MadeInside n (ObjectField.ofNode n) := by
  have name := Name.ofNode_nests h Category.name
  have value : MadeInside n (n.withRequired .value fun c _ => Value.ofNode c) :=
    h.withRequired fun c hc => Value.ofNode_nests c
  rw [ObjectField.ofNode]
  refine name.bind fun _ named => value.bind fun value nests => .pure ?_
  have made : Nests n.span (value.join.getD .missing) := nests.join.getD Value.missing_nests
  exact Fit.whole (named.append made)
termination_by sizeOf n
decreasing_by exact Node.sizeOf_lt_of_mem_children ‹_›

end

theorem Value.within_nests (h : n.Encloses) : MadeInside n (Value.within n) :=
  (h.withRequired fun c _ => ofNode_nests c).bind fun _ value => .pure value.join

/-! ## Arguments and directives -/

/-- A list that is made of an optional child lies inside the node. -/
theorem listWithin_nests {α : Type} [HasExtents α] {f : Node → Build (List α)} (h : n.Encloses)
    (r : Rule) (hf : ∀ {c : Node}, c.Encloses → MadeInside c (f c)) :
    MadeInside n (listWithin n r f) :=
  (h.withFirst fun _ _ => hf).bind fun _ list => .pure (list.getD Fit.nil)

/-- An argument has the place of its node, and its name and its value lie inside. -/
theorem Argument.ofNode_nests (h : n.Encloses) : MadeInside n (Argument.ofNode n) := by
  have name := Name.ofNode_nests h Category.name
  have value := Value.within_nests h
  refine name.bind fun _ named => value.bind fun _ given => .pure ?_
  exact Fit.whole (named.append (given.getD Value.missing_nests))

theorem Argument.allWithin_nests (h : n.Encloses) : MadeInside n (Argument.allWithin n) :=
  h.withEach fun _ _ => ofNode_nests

/-- A directive has the place of its node, and its name and its arguments lie inside. -/
theorem Directive.ofNode_nests (h : n.Encloses) : MadeInside n (Directive.ofNode n) := by
  have name := Name.ofNode_nests h Category.name
  have arguments := listWithin_nests h .arguments Argument.allWithin_nests
  exact name.bind fun _ named => arguments.bind fun _ given =>
    .pure (Fit.whole (named.append given))

theorem Directive.allWithin_nests (h : n.Encloses) : MadeInside n (Directive.allWithin n) :=
  h.withEach fun _ _ => ofNode_nests

theorem Directive.attached_nests (h : n.Encloses) : MadeInside n (Directive.attached n) :=
  listWithin_nests h _ allWithin_nests

/-! ## Selections -/

/-- The name of a fragment has the place of its token. -/
theorem fragmentName_nests (h : n.Encloses) : MadeInside n (fragmentName n) :=
  (h.withRequired fun _ _ below => Name.ofNode_nests below _).bind fun _ name =>
    .pure (name.getD Name.missing_nests)

/-- A spread has the place of its node, and its name and its directives lie inside. -/
theorem FragmentSpread.ofNode_nests (h : n.Encloses) : MadeInside n (FragmentSpread.ofNode n) := by
  have name := fragmentName_nests h
  have directives := Directive.attached_nests h
  exact name.bind fun _ named => directives.bind fun _ attached =>
    .pure (Fit.whole (named.append attached))

/-- The extents of selections are those of the list. -/
theorem Selection.allExtents_eq (selections : List Selection) :
    allExtents selections = GraphQL.extents selections := by
  induction selections with
  | nil => rfl
  | cons s rest ih => exact congrArg (s.extents ++ ·) ih

/-- The extents of a selection set that may be lacking are those of the option. -/
theorem SelectionSet.optionExtents_eq (set : Option SelectionSet) :
    optionExtents set = GraphQL.extents set := by
  cases set <;> rfl

theorem SelectionSet.missing_nests {place : ByteSpan} : Nests place SelectionSet.missing :=
  Fit.missing

mutual

/-- A selection is a field, a spread or an inline fragment, and each lies inside the child that it
    is made of. -/
theorem Selection.ofNode_nests (n : Node) (h : n.Encloses) :
    MadeInside n (Selection.ofNode n) := by
  rw [Selection.ofNode]
  refine h.withChosen fun c hc below result chosen => ?_
  split at chosen
  · cases chosen
    exact (Field.ofNode_nests c below).map fun _ => id
  · cases chosen
    exact (FragmentSpread.ofNode_nests below).map fun _ => id
  · cases chosen
    exact (InlineFragment.ofNode_nests c below).map fun _ => id
  · cases chosen
termination_by sizeOf n
decreasing_by all_goals exact Node.sizeOf_lt_of_mem_children ‹_›

/-- A field has the place of its node, and its alias, name, arguments, directives and selections lie
    inside. -/
theorem Field.ofNode_nests (n : Node) (h : n.Encloses) : MadeInside n (Field.ofNode n) := by
  have aliasName : MadeInside n (n.withFirst .alias fun c _ => Name.ofNode Category.name c) :=
    h.withFirst fun _ _ below => Name.ofNode_nests below Category.name
  have name := Name.ofNode_nests h Category.name
  have arguments := listWithin_nests h .arguments Argument.allWithin_nests
  have directives := Directive.attached_nests h
  have selections : MadeInside n (n.withFirst .selectionSet fun c _ => SelectionSet.ofNode c) :=
    h.withFirst fun c hc => SelectionSet.ofNode_nests c
  rw [Field.ofNode]
  refine aliasName.bind fun _ aliased => name.bind fun _ named => arguments.bind fun _ given =>
    directives.bind fun _ attached => selections.bind fun selectionSet nests => .pure ?_
  have selected : Fit n.span (SelectionSet.optionExtents selectionSet) :=
    SelectionSet.optionExtents_eq selectionSet ▸ nests
  exact Fit.whole ((((aliased.append named).append given).append attached).append selected)
termination_by sizeOf n
decreasing_by exact Node.sizeOf_lt_of_mem_children ‹_›

/-- An inline fragment has the place of its node, and its type condition, directives and selections
    lie inside. -/
theorem InlineFragment.ofNode_nests (n : Node) (h : n.Encloses) :
    MadeInside n (InlineFragment.ofNode n) := by
  have typeCondition : MadeInside n (n.withFirst .typeCondition fun c _ => NamedType.within c) :=
    h.withFirst fun _ _ => NamedType.within_nests
  have directives := Directive.attached_nests h
  have selections : MadeInside n (n.withRequired .selectionSet fun c _ => SelectionSet.ofNode c) :=
    h.withRequired fun c hc => SelectionSet.ofNode_nests c
  rw [InlineFragment.ofNode]
  refine typeCondition.bind fun _ condition => directives.bind fun _ attached =>
    selections.bind fun selectionSet nests => .pure ?_
  have selected : Nests n.span (selectionSet.getD .missing) :=
    nests.getD SelectionSet.missing_nests
  exact Fit.whole ((condition.append attached).append selected)
termination_by sizeOf n
decreasing_by exact Node.sizeOf_lt_of_mem_children ‹_›

/-- A selection set has the place of its node, and its selections lie inside. -/
theorem SelectionSet.ofNode_nests (n : Node) (h : n.Encloses) :
    MadeInside n (SelectionSet.ofNode n) := by
  rw [SelectionSet.ofNode]
  refine (h.withPresent fun c hc => Selection.ofNode_nests c).bind fun selections nests => .pure ?_
  have made : Fit n.span (Selection.allExtents selections) :=
    Selection.allExtents_eq selections ▸ nests
  exact made.whole
termination_by sizeOf n
decreasing_by exact Node.sizeOf_lt_of_mem_children ‹_›

end

theorem SelectionSet.within_nests (h : n.Encloses) : MadeInside n (SelectionSet.within n) :=
  (h.withRequired fun c _ => ofNode_nests c).bind fun _ set => .pure (set.getD missing_nests)

end Makers

end GraphQL
