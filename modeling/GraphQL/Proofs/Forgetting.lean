/-
  Making a document does not look at places.

  The makers look at the rules, labels and texts of a tree and at whether a reading was broken off;
  its places they only copy.  So what is made of a tree without its places is what is made of the
  tree, without its places, and where the one making fails the other fails with the same error.

  `Echoes u x x'` says that the making `x'` gives what `x` gives, seen through `u`.  The first part
  has one lemma for each way in which makers are put together and look into their nodes; then follow
  the makers, in the order in which they are defined.
-/
import GraphQL.Document.OfTree.Definition
import GraphQL.Proofs.Displacement
import GraphQL.Proofs.Unplaced

namespace GraphQL

/-! ## Makings that agree -/

/-- One making gives what another gives, seen through a map, and fails where the other fails. -/
def Echoes {α β : Type} (u : α → β) (x : Build α) (x' : Build β) : Prop := x' = x.map u

namespace Echoes

variable {α β γ δ : Type} {u : α → β} {v : γ → δ} {x : Build α} {x' : Build β}

theorem pure {a : α} {b : β} (same : b = u a) : Echoes u (Pure.pure a) (Pure.pure b) :=
  congrArg Except.ok same

/-- If one making echoes another and so do their continuations, then so do they together. -/
theorem bind {f : α → Build γ} {f' : β → Build δ} (hx : Echoes u x x')
    (hf : ∀ a, Echoes v (f a) (f' (u a))) : Echoes v (x >>= f) (x' >>= f') := by
  rw [Echoes] at hx
  subst hx
  cases x with
  | error e => rfl
  | ok a => exact hf a

/-- If one making echoes another, then so do functions of them that agree up to places. -/
theorem map {f : α → γ} {f' : β → δ} (hx : Echoes u x x') (hf : ∀ a, f' (u a) = v (f a)) :
    Echoes v (x.map f) (x'.map f') := by
  rw [Echoes] at hx
  subst hx
  cases x with
  | error e => rfl
  | ok a => exact congrArg Except.ok (hf a)

/-- The same, for functions whose result is there. -/
theorem mapSome {f : α → γ} {f' : β → δ} (hx : Echoes u x x') (hf : ∀ a, f' (u a) = v (f a)) :
    Echoes (Option.map v) (x.map fun a => some (f a)) (x'.map fun b => some (f' b)) :=
  hx.map fun a => congrArg some (hf a)

/-- If the makers echo each other on each node, then so do their lists. -/
theorem mapM {f : Node → Build α} {f' : Node → Build β} {cs : List Node}
    (hf : ∀ c ∈ cs, Echoes u (f c) (f' c.unplaced)) :
    Echoes (List.map u) (cs.mapM f) ((cs.map Node.unplaced).mapM f') := by
  induction cs with
  | nil => rfl
  | cons c rest ih =>
    have others := ih fun c hc => hf c (List.mem_cons_of_mem _ hc)
    rw [List.map_cons, List.mapM_cons, List.mapM_cons]
    exact (hf c List.mem_cons_self).bind fun a => others.bind fun as => .pure rfl

end Echoes

/-- Places are taken off before or after two ways of being lacking are made one. -/
theorem join_map {α β : Type} (u : α → β) (o : Option (Option α)) :
    (o.map (Option.map u)).join = o.join.map u := by
  cases o <;> rfl

/-! ## Looking into nodes -/

namespace Node

/-- A node without places is of the same rule. -/
@[simp] theorem rule_unplaced (n : Node) : n.unplaced.rule = n.rule := by
  cases n
  rfl

/-- A node without places is nowhere. -/
@[simp] theorem span_unplaced (n : Node) : n.unplaced.span = .nowhere := by
  cases n
  rfl

/-- Its groups have the same labels and the same elements without their places. -/
theorem groups_unplaced (n : Node) :
    n.unplaced.groups = n.groups.map fun (label, es) => (label, es.map Element.unplaced) := by
  cases n
  exact unplacedGroups_eq _

/-- Under each label it has the same elements without their places. -/
theorem elements_unplaced (n : Node) (label : Label) :
    n.unplaced.elements label = (n.elements label).map Element.unplaced := by
  have found : n.unplaced.groups.find? (fun (l, _) => l == label)
      = (n.groups.find? fun (l, _) => l == label).map
        fun (label, es) => (label, es.map Element.unplaced) := by
    rw [groups_unplaced, List.find?_map]
    rfl
  unfold elements
  rw [found]
  cases n.groups.find? fun (l, _) => l == label <;> rfl

/-- It has elements under the same labels. -/
theorem has_unplaced (n : Node) (label : Label) : n.unplaced.has label = n.has label := by
  unfold has
  rw [groups_unplaced, List.any_map]
  rfl

/-- Picking the nodes out of some elements and taking off places may be done in either order. -/
theorem filterMap_node?_unplaced (es : List (Element Node)) :
    (es.map Element.unplaced).filterMap Element.node?
      = (es.filterMap Element.node?).map unplaced := by
  rw [List.filterMap_map, List.map_filterMap]
  refine List.filterMap_congr fun e _ => ?_
  cases e <;> rfl

/-- And so may picking out the tokens. -/
theorem filterMap_token?_unplaced (es : List (Element Node)) :
    (es.map Element.unplaced).filterMap Element.token?
      = (es.filterMap Element.token?).map Token.unplaced := by
  rw [List.filterMap_map, List.map_filterMap]
  refine List.filterMap_congr fun e _ => ?_
  cases e <;> rfl

/-- It has the same readings of each rule without their places. -/
theorem nodes_unplaced (n : Node) (r : Rule) : n.unplaced.nodes r = (n.nodes r).map unplaced := by
  rw [nodes, elements_unplaced, filterMap_node?_unplaced]
  rfl

/-- Its children are the same without their places. -/
theorem children_unplaced (n : Node) : n.unplaced.children = n.children.map unplaced := by
  unfold children
  rw [groups_unplaced, List.flatMap_map, List.map_flatMap]
  exact List.flatMap_congr fun group _ => filterMap_node?_unplaced group.2

/-- The token that met a demand is the same without its place. -/
theorem token?_unplaced (n : Node) (demand : TokenKind) :
    n.unplaced.token? demand = (n.token? demand).map Token.unplaced := by
  rw [token?, tokens, elements_unplaced, filterMap_token?_unplaced, List.head?_map]
  rfl

/-- All its tokens are the same without their places. -/
theorem labelledTokens_unplaced (n : Node) :
    n.unplaced.labelledTokens = n.labelledTokens.map Token.unplaced := by
  unfold labelledTokens
  rw [groups_unplaced, List.flatMap_map, List.map_flatMap]
  refine List.flatMap_congr fun group _ => ?_
  obtain ⟨label, es⟩ := group
  cases label with
  | rule r => rfl
  | token demand => exact filterMap_token?_unplaced es

variable {α β : Type} {u : α → β} {n : Node} {r : Rule}

/-- A gap is judged from the rule and from whether the reading was broken off. -/
theorem lack_unplaced (n : Node) (gap : Gap) (u : α → β) :
    Echoes (Option.map u) (n.lack gap) (n.unplaced.lack gap) := by
  obtain ⟨rule, groups, span, recovered⟩ := n
  cases recovered <;> rfl

/-- A required token is there without places if it is there with them, and the same gap is found
    otherwise. -/
theorem requireToken_unplaced (n : Node) (demand : TokenKind) :
    Echoes (Option.map Token.unplaced) (n.requireToken demand)
      (n.unplaced.requireToken demand) := by
  unfold requireToken
  rw [token?_unplaced]
  cases n.token? demand with
  | some t => rfl
  | none => exact lack_unplaced n _ Token.unplaced

/-- What is made of the first child is echoed if the maker echoes. -/
theorem withFirst_unplaced {f : Node → Build α} {f' : Node → Build β}
    (hf : ∀ c ∈ n.children, Echoes u (f c) (f' c.unplaced)) :
    Echoes (Option.map u) (n.withFirst r fun c _ => f c)
      (n.unplaced.withFirst r fun c _ => f' c) := by
  rw [withFirst_eq, withFirst_eq, nodes_unplaced]
  cases held : n.nodes r with
  | nil => rfl
  | cons c rest =>
    have child : c ∈ n.children := mem_children_of_mem_nodes (held ▸ List.mem_cons_self)
    exact (hf c child).mapSome fun _ => rfl

/-- What is made of a required child is echoed if the maker echoes, and so is the gap where there is
    none. -/
theorem withRequired_unplaced {f : Node → Build α} {f' : Node → Build β}
    (hf : ∀ c ∈ n.children, Echoes u (f c) (f' c.unplaced)) :
    Echoes (Option.map u) (n.withRequired r fun c _ => f c)
      (n.unplaced.withRequired r fun c _ => f' c) := by
  rw [withRequired_eq, withRequired_eq, nodes_unplaced]
  cases held : n.nodes r with
  | nil => exact lack_unplaced n _ u
  | cons c rest =>
    have child : c ∈ n.children := mem_children_of_mem_nodes (held ▸ List.mem_cons_self)
    exact (hf c child).mapSome fun _ => rfl

/-- What is made of each child is echoed if the maker echoes. -/
theorem withEach_unplaced {f : Node → Build α} {f' : Node → Build β}
    (hf : ∀ c ∈ n.children, Echoes u (f c) (f' c.unplaced)) :
    Echoes (List.map u) (n.withEach r fun c _ => f c) (n.unplaced.withEach r fun c _ => f' c) := by
  rw [withEach_eq, withEach_eq, nodes_unplaced]
  exact .mapM fun c hc => hf c (mem_children_of_mem_nodes hc)

/-- And so are those that are there, where some may be lacking. -/
theorem withPresent_unplaced {f : Node → Build (Option α)} {f' : Node → Build (Option β)}
    (hf : ∀ c ∈ n.children, Echoes (Option.map u) (f c) (f' c.unplaced)) :
    Echoes (List.map u) (n.withPresent r fun c _ => f c)
      (n.unplaced.withPresent r fun c _ => f' c) :=
  (withEach_unplaced hf).map fun os => by simp [List.filterMap_map, List.map_filterMap]

/-- The makers for a child and for it without its places are chosen alike, by its rule. -/
theorem withChosen_unplaced {alternatives : List Label} {f : Node → Option (Build (Option α))}
    {f' : Node → Option (Build (Option β))}
    (hf : ∀ c ∈ n.children, Option.Rel (Echoes (Option.map u)) (f c) (f' c.unplaced)) :
    Echoes (Option.map u) (n.withChosen alternatives fun c _ => f c)
      (n.unplaced.withChosen alternatives fun c _ => f' c) := by
  rw [withChosen_eq, withChosen_eq, children_unplaced]
  cases held : n.children with
  | nil => exact lack_unplaced n _ u
  | cons c rest =>
    have agree := hf c (held ▸ List.mem_cons_self)
    simp only [List.map_cons, rule_unplaced]
    revert agree
    generalize f c = made, f' c.unplaced = made'
    rintro (agree | _)
    · exact agree
    · rfl

end Node

/-! ## Names and types -/

/-- A name keeps its text, for it is taken from its token. -/
theorem Name.ofNode_unplaced (demand : TokenKind) (n : Node) :
    Echoes Name.unplaced (Name.ofNode demand n) (Name.ofNode demand n.unplaced) :=
  (n.requireToken_unplaced demand).bind fun token => .pure (by cases token <;> rfl)

/-- A variable keeps its name. -/
theorem Variable.ofNode_unplaced (n : Node) :
    Echoes Variable.unplaced (Variable.ofNode n) (Variable.ofNode n.unplaced) :=
  (Name.ofNode_unplaced _ n).bind fun name => .pure (by rw [n.span_unplaced]; rfl)

/-- A named type keeps its name. -/
theorem NamedType.ofNode_unplaced (n : Node) :
    Echoes NamedType.unplaced (NamedType.ofNode n) (NamedType.ofNode n.unplaced) :=
  (Name.ofNode_unplaced _ n).bind fun name => .pure (by rw [n.span_unplaced]; rfl)

theorem NamedType.within_unplaced (n : Node) :
    Echoes NamedType.unplaced (NamedType.within n) (NamedType.within n.unplaced) :=
  (n.withRequired_unplaced fun c _ => ofNode_unplaced c).bind fun type =>
    .pure (by cases type <;> rfl)

theorem NamedType.allWithin_unplaced (n : Node) :
    Echoes (List.map NamedType.unplaced) (NamedType.allWithin n) (NamedType.allWithin n.unplaced) :=
  n.withEach_unplaced fun c _ => ofNode_unplaced c

mutual

/-- A type keeps what it names or is the list of, and whether it has the mark that rules out
    null. -/
theorem TypeReference.ofNode_unplaced (n : Node) :
    Echoes TypeReference.unplaced (TypeReference.ofNode n) (TypeReference.ofNode n.unplaced) := by
  rw [TypeReference.ofNode, TypeReference.ofNode]
  refine .bind (n.withChosen_unplaced (u := TypeReference.unplaced) fun c hc => ?_) fun inner =>
    .pure ?_
  · rw [c.rule_unplaced]
    split
    · exact .some ((NamedType.ofNode_unplaced c).mapSome fun _ => rfl)
    · exact .some ((TypeReference.listOfNode_unplaced c).mapSome fun _ => rfl)
    · exact .none
  · rw [n.has_unplaced, n.span_unplaced]
    cases inner <;> split <;> rfl
termination_by sizeOf n
decreasing_by exact Node.sizeOf_lt_of_mem_children ‹_›

/-- A list type keeps its element type. -/
theorem TypeReference.listOfNode_unplaced (n : Node) :
    Echoes TypeReference.unplaced (TypeReference.listOfNode n)
      (TypeReference.listOfNode n.unplaced) := by
  rw [TypeReference.listOfNode, TypeReference.listOfNode]
  refine (n.withRequired_unplaced fun c hc => TypeReference.ofNode_unplaced c).bind
    fun element => .pure ?_
  rw [n.span_unplaced]
  cases element <;> rfl
termination_by sizeOf n
decreasing_by exact Node.sizeOf_lt_of_mem_children ‹_›

end

theorem TypeReference.within_unplaced (n : Node) :
    Echoes TypeReference.unplaced (TypeReference.within n) (TypeReference.within n.unplaced) :=
  (n.withRequired_unplaced fun c _ => ofNode_unplaced c).bind fun type =>
    .pure (by cases type <;> rfl)

/-! ## Values -/

namespace Value

/-- Taking the places off values is taking them off one by one. -/
theorem allUnplaced_eq (values : List Value) : allUnplaced values = values.map unplaced := by
  induction values with
  | nil => rfl
  | cons v rest ih => simp [allUnplaced, ih]

/-- A number or a string is made of the text of its token, so it is the same without places. -/
theorem literal?_unplaced (n : Node) : literal? n.unplaced = (literal? n).map unplaced := by
  simp only [literal?, n.token?_unplaced]
  cases n.token? .int with
  | some t => rfl
  | none =>
    cases n.token? .float with
    | some t => rfl
    | none =>
      cases n.token? Category.string <;> rfl

/-- A boolean is told by the label of its word, and labels stay. -/
theorem booleanOfNode_unplaced (n : Node) :
    Echoes (Option.map unplaced) (booleanOfNode n) (booleanOfNode n.unplaced) := by
  unfold booleanOfNode
  rw [n.has_unplaced, n.has_unplaced, n.span_unplaced]
  split
  · rfl
  · split
    · rfl
    · exact n.lack_unplaced _ unplaced

/-- Null is told by its word. -/
theorem nullOfNode_unplaced (n : Node) :
    Echoes unplaced (nullOfNode n) (nullOfNode n.unplaced) :=
  (n.requireToken_unplaced _).bind fun _ => .pure (by rw [n.span_unplaced]; rfl)

/-- An enumeration value keeps its name. -/
theorem enumOfNode_unplaced (n : Node) :
    Echoes (Option.map unplaced) (enumOfNode n) (enumOfNode n.unplaced) :=
  (n.requireToken_unplaced _).bind fun token => .pure (by cases token <;> rfl)

end Value

/-- Taking the places off object fields is taking them off one by one. -/
theorem ObjectField.allUnplaced_eq (fields : List ObjectField) :
    allUnplaced fields = fields.map unplaced := by
  induction fields with
  | nil => rfl
  | cons f rest ih => simp [allUnplaced, ih]

mutual

/-- A value is of the same kind and, without places, the same. -/
theorem Value.ofNode_unplaced (n : Node) :
    Echoes (Option.map Value.unplaced) (Value.ofNode n) (Value.ofNode n.unplaced) := by
  rw [Value.ofNode, Value.ofNode, Value.literal?_unplaced]
  cases Value.literal? n with
  | some v => rfl
  | none =>
    refine n.withChosen_unplaced fun c hc => ?_
    rw [c.rule_unplaced]
    split
    · exact .some ((Variable.ofNode_unplaced c).mapSome fun _ => rfl)
    · exact .some (Value.booleanOfNode_unplaced c)
    · exact .some ((Value.nullOfNode_unplaced c).mapSome fun _ => rfl)
    · exact .some (Value.enumOfNode_unplaced c)
    · exact .some ((Value.listOfNode_unplaced c).mapSome fun _ => rfl)
    · exact .some ((Value.objectOfNode_unplaced c).mapSome fun _ => rfl)
    · exact .none
termination_by sizeOf n
decreasing_by all_goals exact Node.sizeOf_lt_of_mem_children ‹_›

/-- A list keeps its values. -/
theorem Value.listOfNode_unplaced (n : Node) :
    Echoes Value.unplaced (Value.listOfNode n) (Value.listOfNode n.unplaced) := by
  rw [Value.listOfNode, Value.listOfNode]
  refine (n.withPresent_unplaced fun c hc => Value.ofNode_unplaced c).bind fun values => .pure ?_
  rw [n.span_unplaced, Value.unplaced, Value.allUnplaced_eq]
termination_by sizeOf n
decreasing_by exact Node.sizeOf_lt_of_mem_children ‹_›

/-- An object keeps its fields. -/
theorem Value.objectOfNode_unplaced (n : Node) :
    Echoes Value.unplaced (Value.objectOfNode n) (Value.objectOfNode n.unplaced) := by
  rw [Value.objectOfNode, Value.objectOfNode]
  refine (n.withEach_unplaced fun c hc => ObjectField.ofNode_unplaced c).bind fun fields => .pure ?_
  rw [n.span_unplaced, Value.unplaced, ObjectField.allUnplaced_eq]
termination_by sizeOf n
decreasing_by exact Node.sizeOf_lt_of_mem_children ‹_›

/-- An object field keeps its name and its value. -/
theorem ObjectField.ofNode_unplaced (n : Node) :
    Echoes ObjectField.unplaced (ObjectField.ofNode n) (ObjectField.ofNode n.unplaced) := by
  have name := Name.ofNode_unplaced Category.name n
  have value : Echoes (Option.map (Option.map Value.unplaced))
      (n.withRequired .value fun c _ => Value.ofNode c)
      (n.unplaced.withRequired .value fun c _ => Value.ofNode c) :=
    n.withRequired_unplaced fun c hc => Value.ofNode_unplaced c
  rw [ObjectField.ofNode, ObjectField.ofNode]
  refine name.bind fun _ => value.bind fun value => .pure ?_
  rw [n.span_unplaced, join_map]
  cases value.join <;> rfl
termination_by sizeOf n
decreasing_by exact Node.sizeOf_lt_of_mem_children ‹_›

end

theorem Value.within_unplaced (n : Node) :
    Echoes (Option.map Value.unplaced) (Value.within n) (Value.within n.unplaced) :=
  (n.withRequired_unplaced fun c _ => ofNode_unplaced c).bind fun value => .pure (join_map _ value)

/-! ## Arguments and directives -/

/-- A list that is made of an optional child is echoed if its maker echoes. -/
theorem listWithin_unplaced {α : Type} {u : α → α} {f : Node → Build (List α)} (n : Node) (r : Rule)
    (hf : ∀ c, Echoes (List.map u) (f c) (f c.unplaced)) :
    Echoes (List.map u) (listWithin n r f) (listWithin n.unplaced r f) :=
  (n.withFirst_unplaced fun c _ => hf c).bind fun list => .pure (by cases list <;> rfl)

/-- An argument keeps its name and its value. -/
theorem Argument.ofNode_unplaced (n : Node) :
    Echoes Argument.unplaced (Argument.ofNode n) (Argument.ofNode n.unplaced) := by
  have name := Name.ofNode_unplaced Category.name n
  have value := Value.within_unplaced n
  refine name.bind fun _ => value.bind fun value => .pure ?_
  rw [n.span_unplaced]
  cases value <;> rfl

theorem Argument.allWithin_unplaced (n : Node) :
    Echoes (List.map Argument.unplaced) (Argument.allWithin n) (Argument.allWithin n.unplaced) :=
  n.withEach_unplaced fun c _ => ofNode_unplaced c

/-- A directive keeps its name and its arguments. -/
theorem Directive.ofNode_unplaced (n : Node) :
    Echoes Directive.unplaced (Directive.ofNode n) (Directive.ofNode n.unplaced) := by
  have name := Name.ofNode_unplaced Category.name n
  have arguments := listWithin_unplaced n .arguments Argument.allWithin_unplaced
  refine name.bind fun _ => arguments.bind fun _ => .pure ?_
  rw [n.span_unplaced]
  rfl

theorem Directive.allWithin_unplaced (n : Node) :
    Echoes (List.map Directive.unplaced) (Directive.allWithin n)
      (Directive.allWithin n.unplaced) :=
  n.withEach_unplaced fun c _ => ofNode_unplaced c

/-- The directives that are attached to what a node stands for are the same without places. -/
theorem Directive.attached_unplaced (n : Node) :
    Echoes (List.map Directive.unplaced) (Directive.attached n) (Directive.attached n.unplaced) :=
  listWithin_unplaced n _ allWithin_unplaced

/-! ## Selections -/

/-- The name of a fragment keeps its text. -/
theorem fragmentName_unplaced (n : Node) :
    Echoes Name.unplaced (fragmentName n) (fragmentName n.unplaced) :=
  (n.withRequired_unplaced fun c _ => Name.ofNode_unplaced _ c).bind fun name =>
    .pure (by cases name <;> rfl)

/-- A spread keeps the name of its fragment and its directives. -/
theorem FragmentSpread.ofNode_unplaced (n : Node) :
    Echoes FragmentSpread.unplaced (FragmentSpread.ofNode n) (FragmentSpread.ofNode n.unplaced) := by
  have name := fragmentName_unplaced n
  have directives := Directive.attached_unplaced n
  refine name.bind fun _ => directives.bind fun _ => .pure ?_
  rw [n.span_unplaced]
  rfl

/-- Taking the places off selections is taking them off one by one. -/
theorem Selection.allUnplaced_eq (selections : List Selection) :
    allUnplaced selections = selections.map unplaced := by
  induction selections with
  | nil => rfl
  | cons s rest ih => simp [allUnplaced, ih]

/-- Taking the places off a selection set that may be lacking is taking them off where it is
    there. -/
theorem SelectionSet.optionUnplaced_eq (set : Option SelectionSet) :
    optionUnplaced set = set.map unplaced := by
  cases set <;> rfl

mutual

/-- A selection is of the same kind and, without places, the same. -/
theorem Selection.ofNode_unplaced (n : Node) :
    Echoes (Option.map Selection.unplaced) (Selection.ofNode n) (Selection.ofNode n.unplaced) := by
  rw [Selection.ofNode, Selection.ofNode]
  refine n.withChosen_unplaced fun c hc => ?_
  rw [c.rule_unplaced]
  split
  · exact .some ((Field.ofNode_unplaced c).mapSome fun _ => rfl)
  · exact .some ((FragmentSpread.ofNode_unplaced c).mapSome fun _ => rfl)
  · exact .some ((InlineFragment.ofNode_unplaced c).mapSome fun _ => rfl)
  · exact .none
termination_by sizeOf n
decreasing_by all_goals exact Node.sizeOf_lt_of_mem_children ‹_›

/-- A field keeps its alias, name, arguments, directives and selections. -/
theorem Field.ofNode_unplaced (n : Node) :
    Echoes Field.unplaced (Field.ofNode n) (Field.ofNode n.unplaced) := by
  have name := Name.ofNode_unplaced Category.name n
  have arguments := listWithin_unplaced n .arguments Argument.allWithin_unplaced
  have directives := Directive.attached_unplaced n
  have selections : Echoes (Option.map SelectionSet.unplaced)
      (n.withFirst .selectionSet fun c _ => SelectionSet.ofNode c)
      (n.unplaced.withFirst .selectionSet fun c _ => SelectionSet.ofNode c) :=
    n.withFirst_unplaced fun c hc => SelectionSet.ofNode_unplaced c
  rw [Field.ofNode, Field.ofNode]
  refine (n.withFirst_unplaced fun c _ => Name.ofNode_unplaced _ c).bind fun _ =>
    name.bind fun _ => arguments.bind fun _ => directives.bind fun _ => selections.bind fun _ =>
      .pure ?_
  rw [n.span_unplaced, Field.unplaced, SelectionSet.optionUnplaced_eq]
termination_by sizeOf n
decreasing_by exact Node.sizeOf_lt_of_mem_children ‹_›

/-- An inline fragment keeps its type condition, directives and selections. -/
theorem InlineFragment.ofNode_unplaced (n : Node) :
    Echoes InlineFragment.unplaced (InlineFragment.ofNode n)
      (InlineFragment.ofNode n.unplaced) := by
  have directives := Directive.attached_unplaced n
  have selections : Echoes (Option.map SelectionSet.unplaced)
      (n.withRequired .selectionSet fun c _ => SelectionSet.ofNode c)
      (n.unplaced.withRequired .selectionSet fun c _ => SelectionSet.ofNode c) :=
    n.withRequired_unplaced fun c hc => SelectionSet.ofNode_unplaced c
  rw [InlineFragment.ofNode, InlineFragment.ofNode]
  refine (n.withFirst_unplaced fun c _ => NamedType.within_unplaced c).bind fun _ =>
    directives.bind fun _ => selections.bind fun selectionSet => .pure ?_
  rw [n.span_unplaced]
  cases selectionSet <;> rfl
termination_by sizeOf n
decreasing_by exact Node.sizeOf_lt_of_mem_children ‹_›

/-- A selection set keeps its selections. -/
theorem SelectionSet.ofNode_unplaced (n : Node) :
    Echoes SelectionSet.unplaced (SelectionSet.ofNode n) (SelectionSet.ofNode n.unplaced) := by
  rw [SelectionSet.ofNode, SelectionSet.ofNode]
  refine (n.withPresent_unplaced fun c hc => Selection.ofNode_unplaced c).bind fun selections =>
    .pure ?_
  rw [n.span_unplaced, SelectionSet.unplaced, Selection.allUnplaced_eq]
termination_by sizeOf n
decreasing_by exact Node.sizeOf_lt_of_mem_children ‹_›

end

theorem SelectionSet.within_unplaced (n : Node) :
    Echoes SelectionSet.unplaced (SelectionSet.within n) (SelectionSet.within n.unplaced) :=
  (n.withRequired_unplaced fun c _ => ofNode_unplaced c).bind fun set =>
    .pure (by cases set <;> rfl)

end GraphQL
