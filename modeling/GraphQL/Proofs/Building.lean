/-
  Parts of documents are made of conforming nodes.

  Making something of a node fails only where a node that was not given up lacks something, or where
  a chosen child is no alternative.  In a node that conforms to the standard productions neither can
  be: what such a node must have is computed from its production (`Production.surely`), and its
  children are labels of it.  So each maker asks for a check of one production, and for the success
  of the makers that it calls.

  `Reads r n` says that `n` is a conforming node of rule `r`.  The first part has one lemma for each
  way in which a maker looks into its node; then follow the makers, in the order in which they are
  defined.  Where makers call each other the proofs do so too, along the same descent to children.
-/
import GraphQL.Document.OfTree.Selection
import GraphQL.Proofs.Conformance
import GraphQL.Proofs.StandardGrammar

namespace GraphQL

/-! ## Success -/

/-- Something is made. -/
def Succeeds {α : Type} (result : Build α) : Prop := ∃ a, result = .ok a

namespace Succeeds

variable {α β : Type}

theorem pure (a : α) : Succeeds (Pure.pure a) := ⟨a, rfl⟩

/-- Something is made in two steps if both succeed. -/
theorem bind {x : Build α} {f : α → Build β} (hx : Succeeds x) (hf : ∀ a, Succeeds (f a)) :
    Succeeds (x >>= f) := by
  obtain ⟨a, rfl⟩ := hx
  exact hf a

theorem map {x : Build α} (f : α → β) (hx : Succeeds x) : Succeeds (x.map f) := by
  obtain ⟨a, rfl⟩ := hx
  exact ⟨f a, rfl⟩

/-- A list is made if each of its elements is. -/
theorem mapM {f : β → Build α} {bs : List β} (hf : ∀ b ∈ bs, Succeeds (f b)) :
    Succeeds (bs.mapM f) := by
  induction bs with
  | nil => exact ⟨[], rfl⟩
  | cons b rest ih =>
    rw [List.mapM_cons]
    exact .bind (hf b List.mem_cons_self) fun a =>
      .bind (ih fun b hb => hf b (List.mem_cons_of_mem _ hb)) fun as => .pure _

end Succeeds

/-- A gap in a node that cannot have been read to its end is no error. -/
theorem succeeds_lack {α : Type} {n : Node} {gap : Gap} (broken : n.recovered = false → False) :
    Succeeds (n.lack gap : Build (Option α)) :=
  ⟨none, by simp [Node.lack, eq_true_of_ne_false broken]⟩

/-! ## Looking into nodes -/

/-- A conforming node of a rule of the standard grammar. -/
structure Reads (r : Rule) (n : Node) : Prop where
  rule : n.rule = r
  conforms : n.Conforms Standard.productions

/-- Whether a label is that of a rule. -/
def Label.isRule : Label → Bool
  | .rule _ => true
  | .token _ => false

/-- Whether a label is that of a demand. -/
def Label.isToken : Label → Bool
  | .rule _ => false
  | .token _ => true

namespace Reads

variable {α : Type} {r q : Rule} {n : Node}

/-- A child of a conforming node conforms to its own rule, which the production of the node
    calls. -/
theorem child (h : Reads r n) {c : Node} (hc : c ∈ n.children) :
    Reads c.rule c ∧ c.rule ∈ (Standard.production r).calls := by
  obtain ⟨conforms, known⟩ := h.conforms.child hc
  refine ⟨⟨rfl, conforms⟩, ?_⟩
  simpa [Production.labels, Standard.productions, h.rule] using known

theorem of_mem_nodes (h : Reads r n) {c : Node} (hc : c ∈ n.nodes q) : Reads q c where
  rule := h.conforms.rule_of_mem_nodes hc
  conforms := (h.conforms.child (Node.mem_children_of_mem_nodes hc)).1

/-- A node that was not given up has what its production must have. -/
theorem has (h : Reads r n) (whole : n.recovered = false) {wanted : Label → Bool}
    (sure : (Standard.production r).surely wanted = true) :
    ∃ label, n.has label = true ∧ wanted label = true :=
  h.conforms.has_of_surely whole (by simpa [Standard.productions, h.rule] using sure)

/-- A node that was not given up has a child if its production has one in every match. -/
theorem exists_child (h : Reads r n) (whole : n.recovered = false)
    (sure : (Standard.production r).surely Label.isRule = true) : ∃ c, c ∈ n.children := by
  obtain ⟨label, has, isRule⟩ := h.has whole sure
  cases label with
  | token demand => cases isRule
  | rule q =>
    obtain ⟨c, hc⟩ := h.conforms.exists_node has
    exact ⟨c, Node.mem_children_of_mem_nodes hc⟩

/-- A required token is there if the production has it in every match, and the node was not given
    up. -/
theorem requireToken (h : Reads r n) {demand : TokenKind}
    (sure : (Standard.production r).surely (· == .token demand) = true) :
    Succeeds (n.requireToken demand) := by
  unfold Node.requireToken
  cases ht : n.token? demand with
  | some t => exact ⟨some t, rfl⟩
  | none =>
    refine succeeds_lack fun whole => ?_
    obtain ⟨label, has, hl⟩ := h.has whole sure
    obtain ⟨t, filed⟩ := h.conforms.exists_token (eq_of_beq hl ▸ has)
    rw [filed] at ht
    cases ht

/-- Something is made of the first child if it is made of any, and nothing is asked for where there
    is none. -/
theorem withFirst (h : Reads r n) {f : (c : Node) → c ∈ n.children → Build α}
    (hf : ∀ c hc, Reads q c → Succeeds (f c hc)) : Succeeds (n.withFirst q f) := by
  unfold Node.withFirst
  split
  · exact ⟨none, rfl⟩
  · rename_i c rest hnodes
    exact .map _ (hf c _ (h.of_mem_nodes (hnodes ▸ List.mem_cons_self)))

/-- A required child is there if the production has it in every match, and the node was not given
    up. -/
theorem withRequired (h : Reads r n) {f : (c : Node) → c ∈ n.children → Build α}
    (sure : (Standard.production r).surely (· == .rule q) = true)
    (hf : ∀ c hc, Reads q c → Succeeds (f c hc)) : Succeeds (n.withRequired q f) := by
  unfold Node.withRequired
  split
  · rename_i hnodes
    refine succeeds_lack fun whole => ?_
    obtain ⟨label, has, hl⟩ := h.has whole sure
    obtain ⟨c, hmem⟩ := h.conforms.exists_node (eq_of_beq hl ▸ has)
    rw [hnodes] at hmem
    cases hmem
  · rename_i c rest hnodes
    exact .map _ (hf c _ (h.of_mem_nodes (hnodes ▸ List.mem_cons_self)))

theorem withEach (h : Reads r n) {f : (c : Node) → c ∈ n.children → Build α}
    (hf : ∀ c hc, Reads q c → Succeeds (f c hc)) : Succeeds (n.withEach q f) :=
  .mapM fun c _ => hf c.val _ (h.of_mem_nodes c.property)

theorem withPresent (h : Reads r n) {f : (c : Node) → c ∈ n.children → Build (Option α)}
    (hf : ∀ c hc, Reads q c → Succeeds (f c hc)) : Succeeds (n.withPresent q f) :=
  .map _ (h.withEach hf)

/-- A choice is made of the first child, if there is one; it is one of the rules called. -/
theorem withChosen (h : Reads r n) {alternatives : List Label}
    {f : (c : Node) → c ∈ n.children → Option (Build (Option α))}
    (present : n.recovered = false → ∃ c, c ∈ n.children)
    (hf : ∀ c hc, Reads c.rule c → c.rule ∈ (Standard.production r).calls →
      ∃ result, f c hc = some result ∧ Succeeds result) :
    Succeeds (n.withChosen alternatives f) := by
  unfold Node.withChosen
  split
  · -- a node that was not given up has a child
    rename_i hnone
    refine succeeds_lack fun whole => ?_
    obtain ⟨c, hc⟩ := present whole
    rw [hnone] at hc
    cases hc
  · -- its first child is one of the alternatives
    rename_i c rest hchildren
    have hc : c ∈ n.children := hchildren ▸ List.mem_cons_self
    obtain ⟨reads, called⟩ := h.child hc
    obtain ⟨result, made, succeeds⟩ := hf c hc reads called
    rw [made]
    exact succeeds

end Reads

/-! ## Names and types -/

section Values

variable {r : Rule} {n : Node}

/-- A name is made where the production has its token in every match. -/
theorem Name.ofNode_succeeds (h : Reads r n) {demand : TokenKind}
    (sure : (Standard.production r).surely (· == .token demand) = true) :
    Succeeds (Name.ofNode demand n) :=
  .bind (h.requireToken sure) fun _ => .pure _

theorem Variable.ofNode_succeeds (h : Reads .variable n) : Succeeds (Variable.ofNode n) :=
  .bind (Name.ofNode_succeeds h rfl) fun _ => .pure _

theorem NamedType.ofNode_succeeds (h : Reads .namedType n) : Succeeds (NamedType.ofNode n) :=
  .bind (Name.ofNode_succeeds h rfl) fun _ => .pure _

/-- A named type is made where the production has one in every match. -/
theorem NamedType.within_succeeds (h : Reads r n)
    (sure : (Standard.production r).surely (· == .rule .namedType) = true) :
    Succeeds (NamedType.within n) :=
  .bind (h.withRequired sure fun _ _ => NamedType.ofNode_succeeds) fun _ => .pure _

theorem NamedType.allWithin_succeeds (h : Reads r n) : Succeeds (NamedType.allWithin n) :=
  h.withEach fun _ _ => NamedType.ofNode_succeeds

mutual

/-- A type is made: its production has a named type or a list type in every match, and these are the
    alternatives that the maker knows. -/
theorem TypeReference.ofNode_succeeds (n : Node) (h : Reads .type n) :
    Succeeds (TypeReference.ofNode n) := by
  rw [TypeReference.ofNode]
  refine .bind (h.withChosen (fun whole => h.exists_child whole rfl) ?_) fun _ => .pure _
  intro c hc reads called
  rcases List.mem_pair.mp called with hr | hr <;> rw [hr] at reads <;> simp only [hr]
  · exact ⟨_, rfl, .map _ (NamedType.ofNode_succeeds reads)⟩
  · exact ⟨_, rfl, .map _ (TypeReference.listOfNode_succeeds c reads)⟩
termination_by sizeOf n
decreasing_by exact Node.sizeOf_lt_of_mem_children ‹_›

/-- A list type is made, for a type stands between its brackets. -/
theorem TypeReference.listOfNode_succeeds (n : Node) (h : Reads .listType n) :
    Succeeds (TypeReference.listOfNode n) := by
  rw [TypeReference.listOfNode]
  exact .bind (h.withRequired rfl fun c _ reads => TypeReference.ofNode_succeeds c reads)
    fun _ => .pure _
termination_by sizeOf n
decreasing_by exact Node.sizeOf_lt_of_mem_children ‹_›

end

/-- The type in a node is made where the production has one in every match. -/
theorem TypeReference.within_succeeds (h : Reads r n)
    (sure : (Standard.production r).surely (· == .rule .type) = true) :
    Succeeds (TypeReference.within n) :=
  .bind (h.withRequired sure fun c _ => TypeReference.ofNode_succeeds c) fun _ => .pure _

/-! ## Values -/

/-- A value without a literal has none of the tokens that literals are made of. -/
theorem Value.token?_of_literal? (none : Value.literal? n = none) {demand : TokenKind}
    (literal : demand ∈ [.int, .float, .category .string]) : n.token? demand = Option.none := by
  unfold Value.literal? at none
  split at none
  · cases none
  · rename_i noInt
    split at none
    · cases none
    · rename_i noFloat
      simp only [List.mem_cons, List.not_mem_nil, or_false] at literal
      rcases literal with rfl | rfl | rfl
      · exact noInt
      · exact noFloat
      · exact Option.map_eq_none_iff.mp none

/-- A value that was not given up and holds no literal has a child. -/
theorem Value.exists_child (h : Reads .value n) (none : Value.literal? n = none)
    (whole : n.recovered = false) : ∃ c, c ∈ n.children := by
  have sure : (Standard.production .value).surely (fun
      | .rule _ => true
      | .token demand => [.int, .float, .category .string].contains demand) = true := rfl
  obtain ⟨label, has, hl⟩ := h.has whole sure
  cases label with
  | rule q =>
    obtain ⟨c, hc⟩ := h.conforms.exists_node has
    exact ⟨c, Node.mem_children_of_mem_nodes hc⟩
  | token demand =>
    obtain ⟨t, filed⟩ := h.conforms.exists_token has
    rw [Value.token?_of_literal? none (List.contains_iff_mem.mp hl)] at filed
    cases filed

/-- A boolean is made, for its production has one of the two words in every match. -/
theorem Value.booleanOfNode_succeeds (h : Reads .booleanValue n) :
    Succeeds (Value.booleanOfNode n) := by
  unfold Value.booleanOfNode
  split
  · exact .pure _
  · rename_i noTrue
    split
    · exact .pure _
    · rename_i noFalse
      refine succeeds_lack fun whole => ?_
      obtain ⟨label, has, hl⟩ := h.has whole
        (show (Standard.production .booleanValue).surely
          (fun l => l == .token Word.trueWord || l == .token Word.falseWord) = true from rfl)
      rcases Bool.or_eq_true_iff.mp hl with hl | hl
      · exact noTrue (eq_of_beq hl ▸ has)
      · exact noFalse (eq_of_beq hl ▸ has)

theorem Value.nullOfNode_succeeds (h : Reads .nullValue n) : Succeeds (Value.nullOfNode n) :=
  .bind (h.requireToken rfl) fun _ => .pure _

theorem Value.enumOfNode_succeeds (h : Reads .enumValue n) : Succeeds (Value.enumOfNode n) :=
  .bind (h.requireToken rfl) fun _ => .pure _

mutual

/-- A value is made: it is a literal, or it has a child that is one of the alternatives. -/
theorem Value.ofNode_succeeds (n : Node) (h : Reads .value n) : Succeeds (Value.ofNode n) := by
  rw [Value.ofNode]
  split
  · exact .pure _
  · rename_i none
    refine h.withChosen (Value.exists_child h none) fun c hc reads called => ?_
    have called : c.rule ∈ [.variable, .booleanValue, .nullValue, .enumValue, .listValue,
      .objectValue] := called
    simp only [List.mem_cons, List.not_mem_nil, or_false] at called
    rcases called with hr | hr | hr | hr | hr | hr <;> rw [hr] at reads <;> simp only [hr]
    · exact ⟨_, rfl, .map _ (Variable.ofNode_succeeds reads)⟩
    · exact ⟨_, rfl, Value.booleanOfNode_succeeds reads⟩
    · exact ⟨_, rfl, .map _ (Value.nullOfNode_succeeds reads)⟩
    · exact ⟨_, rfl, Value.enumOfNode_succeeds reads⟩
    · exact ⟨_, rfl, .map _ (Value.listOfNode_succeeds c reads)⟩
    · exact ⟨_, rfl, .map _ (Value.objectOfNode_succeeds c reads)⟩
termination_by sizeOf n
decreasing_by all_goals exact Node.sizeOf_lt_of_mem_children ‹_›

/-- A list is made if its values are. -/
theorem Value.listOfNode_succeeds (n : Node) (h : Reads .listValue n) :
    Succeeds (Value.listOfNode n) := by
  rw [Value.listOfNode]
  exact .bind (h.withPresent fun c _ reads => Value.ofNode_succeeds c reads) fun _ => .pure _
termination_by sizeOf n
decreasing_by exact Node.sizeOf_lt_of_mem_children ‹_›

/-- An object is made if its fields are. -/
theorem Value.objectOfNode_succeeds (n : Node) (h : Reads .objectValue n) :
    Succeeds (Value.objectOfNode n) := by
  rw [Value.objectOfNode]
  exact .bind (h.withEach fun c _ reads => ObjectField.ofNode_succeeds c reads) fun _ => .pure _
termination_by sizeOf n
decreasing_by exact Node.sizeOf_lt_of_mem_children ‹_›

/-- An object field is made, for its production has a name and a value in every match. -/
theorem ObjectField.ofNode_succeeds (n : Node) (h : Reads .objectField n) :
    Succeeds (ObjectField.ofNode n) := by
  have name : Succeeds (Name.ofNode Category.name n) := Name.ofNode_succeeds h rfl
  have value : Succeeds (n.withRequired .value fun c _ => Value.ofNode c) :=
    h.withRequired rfl fun c _ reads => Value.ofNode_succeeds c reads
  rw [ObjectField.ofNode]
  exact .bind name fun _ => .bind value fun _ => .pure _
termination_by sizeOf n
decreasing_by exact Node.sizeOf_lt_of_mem_children ‹_›

end

/-- The value in a node is made where the production has one in every match. -/
theorem Value.within_succeeds (h : Reads r n)
    (sure : (Standard.production r).surely (· == .rule .value) = true) :
    Succeeds (Value.within n) :=
  .bind (h.withRequired sure fun c _ => Value.ofNode_succeeds c) fun _ => .pure _

end Values

/-! ## Arguments and directives -/

section Selections

variable {r q : Rule} {n : Node}

theorem listWithin_succeeds {α : Type} (h : Reads r n) {f : Node → Build (List α)}
    (hf : ∀ c, Reads q c → Succeeds (f c)) : Succeeds (listWithin n q f) :=
  .bind (h.withFirst fun c _ => hf c) fun _ => .pure _

/-- An argument is made, for its production has a name and a value in every match. -/
theorem Argument.ofNode_succeeds (h : Reads .argument n) : Succeeds (Argument.ofNode n) := by
  have name : Succeeds (Name.ofNode Category.name n) := Name.ofNode_succeeds h rfl
  have value := Value.within_succeeds h rfl
  exact .bind name fun _ => .bind value fun _ => .pure _

theorem Argument.allWithin_succeeds (h : Reads r n) : Succeeds (Argument.allWithin n) :=
  h.withEach fun _ _ => Argument.ofNode_succeeds

/-- A directive is made, for its production has a name in every match. -/
theorem Directive.ofNode_succeeds (h : Reads .directive n) : Succeeds (Directive.ofNode n) := by
  have name : Succeeds (Name.ofNode Category.name n) := Name.ofNode_succeeds h rfl
  have arguments : Succeeds (listWithin n .arguments Argument.allWithin) :=
    listWithin_succeeds h fun _ => Argument.allWithin_succeeds
  exact .bind name fun _ => .bind arguments fun _ => .pure _

theorem Directive.allWithin_succeeds (h : Reads r n) : Succeeds (Directive.allWithin n) :=
  h.withEach fun _ _ => Directive.ofNode_succeeds

theorem Directive.attached_succeeds (h : Reads r n) : Succeeds (Directive.attached n) :=
  listWithin_succeeds h fun _ => Directive.allWithin_succeeds

/-! ## Selections -/

/-- The name of a fragment is made where the production has one in every match. -/
theorem fragmentName_succeeds (h : Reads r n)
    (sure : (Standard.production r).surely (· == .rule .fragmentName) = true) :
    Succeeds (fragmentName n) :=
  .bind (h.withRequired sure fun _ _ reads => Name.ofNode_succeeds reads rfl) fun _ => .pure _

/-- A spread is made, for its production has the name of a fragment in every match. -/
theorem FragmentSpread.ofNode_succeeds (h : Reads .fragmentSpread n) :
    Succeeds (FragmentSpread.ofNode n) := by
  have name := fragmentName_succeeds h rfl
  have directives := Directive.attached_succeeds h
  exact .bind name fun _ => .bind directives fun _ => .pure _

mutual

/-- A selection is made: its child is a field, a spread or an inline fragment. -/
theorem Selection.ofNode_succeeds (n : Node) (h : Reads .selection n) :
    Succeeds (Selection.ofNode n) := by
  rw [Selection.ofNode]
  refine h.withChosen (fun whole => h.exists_child whole rfl) fun c hc reads called => ?_
  have called : c.rule ∈ [.field, .fragmentSpread, .inlineFragment] := called
  simp only [List.mem_cons, List.not_mem_nil, or_false] at called
  rcases called with hr | hr | hr <;> rw [hr] at reads <;> simp only [hr]
  · exact ⟨_, rfl, .map _ (Field.ofNode_succeeds c reads)⟩
  · exact ⟨_, rfl, .map _ (FragmentSpread.ofNode_succeeds reads)⟩
  · exact ⟨_, rfl, .map _ (InlineFragment.ofNode_succeeds c reads)⟩
termination_by sizeOf n
decreasing_by all_goals exact Node.sizeOf_lt_of_mem_children ‹_›

/-- A field is made, for its production has a name in every match, and all else is optional. -/
theorem Field.ofNode_succeeds (n : Node) (h : Reads .field n) : Succeeds (Field.ofNode n) := by
  have aliased : Succeeds (n.withFirst .alias fun c _ => Name.ofNode Category.name c) :=
    h.withFirst fun _ _ reads => Name.ofNode_succeeds reads rfl
  have name : Succeeds (Name.ofNode Category.name n) := Name.ofNode_succeeds h rfl
  have arguments : Succeeds (listWithin n .arguments Argument.allWithin) :=
    listWithin_succeeds h fun _ => Argument.allWithin_succeeds
  have directives := Directive.attached_succeeds h
  have selections : Succeeds (n.withFirst .selectionSet fun c _ => SelectionSet.ofNode c) :=
    h.withFirst fun c _ reads => SelectionSet.ofNode_succeeds c reads
  rw [Field.ofNode]
  exact .bind aliased fun _ => .bind name fun _ => .bind arguments fun _ =>
    .bind directives fun _ => .bind selections fun _ => .pure _
termination_by sizeOf n
decreasing_by exact Node.sizeOf_lt_of_mem_children ‹_›

/-- An inline fragment is made, for its production has a selection set in every match. -/
theorem InlineFragment.ofNode_succeeds (n : Node) (h : Reads .inlineFragment n) :
    Succeeds (InlineFragment.ofNode n) := by
  have condition : Succeeds (n.withFirst .typeCondition fun c _ => NamedType.within c) :=
    h.withFirst fun _ _ reads => NamedType.within_succeeds reads rfl
  have directives := Directive.attached_succeeds h
  have selections : Succeeds (n.withRequired .selectionSet fun c _ => SelectionSet.ofNode c) :=
    h.withRequired rfl fun c _ reads => SelectionSet.ofNode_succeeds c reads
  rw [InlineFragment.ofNode]
  exact .bind condition fun _ => .bind directives fun _ => .bind selections fun _ => .pure _
termination_by sizeOf n
decreasing_by exact Node.sizeOf_lt_of_mem_children ‹_›

/-- A selection set is made if its selections are. -/
theorem SelectionSet.ofNode_succeeds (n : Node) (h : Reads .selectionSet n) :
    Succeeds (SelectionSet.ofNode n) := by
  rw [SelectionSet.ofNode]
  exact .bind (h.withPresent fun c _ reads => Selection.ofNode_succeeds c reads) fun _ => .pure _
termination_by sizeOf n
decreasing_by exact Node.sizeOf_lt_of_mem_children ‹_›

end

/-- The selection set in a node is made where the production has one in every match. -/
theorem SelectionSet.within_succeeds (h : Reads r n)
    (sure : (Standard.production r).surely (· == .rule .selectionSet) = true) :
    Succeeds (SelectionSet.within n) :=
  .bind (h.withRequired sure fun c _ => SelectionSet.ofNode_succeeds c) fun _ => .pure _

end Selections

end GraphQL
