/-
  Marking more nodes as broken off changes nothing that could be made before.

  A gap in a node that was not broken off is an error, and in one that was it is filled in or left
  out.  So the mark can only turn an error into a result: it must not change a result that was there
  without it.  That is not clear from the look of the makers, since each of them has its own way to
  fill a gap; it holds because all of them ask for the mark where a gap has been found, and nowhere
  else.

  `Node.markedAt` marks the nodes at any set of places.  `Node.Relaxed n n'` says that `n'` is `n` with
  more of its nodes marked, whatever the shape of the tree is, and `Keeps x x'` that a making `x'`
  gives what `x` gives, if `x` gives anything.  The first part of the walk goes up to selections.
-/
import GraphQL.Document.OfTree.Definition
import GraphQL.Proofs.PlanShape
import Mathlib.Data.List.Forall2

namespace GraphQL

/-! ## Marking nodes -/

/-- A way from a node to one below it: at each node the number of a group and of an element in
    it. -/
abbrev Descent := List (Nat × Nat)

namespace Node

mutual

/-- The tree with the nodes at some places marked as broken off. -/
def markedAt (places : Descent → Bool) : Node → Node
  | ⟨rule, groups, span, recovered⟩ =>
    ⟨rule, groupsMarkedAt places 0 groups, span, recovered || places []⟩

/-- The same, for the groups of a node from the `i`-th on. -/
def groupsMarkedAt (places : Descent → Bool) (i : Nat) :
    List (Label × List (Element Node)) → List (Label × List (Element Node))
  | [] => []
  | (label, es) :: rest => (label, elementsMarkedAt places i 0 es) :: groupsMarkedAt places (i + 1) rest

/-- The same, for the elements of the `i`-th group from the `j`-th on. -/
def elementsMarkedAt (places : Descent → Bool) (i j : Nat) :
    List (Element Node) → List (Element Node)
  | [] => []
  | .node n :: rest =>
    .node (n.markedAt fun below => places ((i, j) :: below)) :: elementsMarkedAt places i (j + 1) rest
  | .token t :: rest => .token t :: elementsMarkedAt places i (j + 1) rest

end

end Node

/-! ## Trees with more marks -/

/-- Elements that are the same token, or nodes that are related. -/
inductive Element.Lift {N : Type} (R : N → N → Prop) : Element N → Element N → Prop where
  | node {n n' : N} (related : R n n') : Lift R (.node n) (.node n')
  | token (t : Token) : Lift R (.token t) (.token t)

/-- Groups of a node that have the same label and one by one related elements. -/
inductive GroupLift {N : Type} (R : N → N → Prop) :
    Label × List (Element N) → Label × List (Element N) → Prop where
  | mk (label : Label) {es es' : List (Element N)} (held : List.Forall₂ (Element.Lift R) es es') :
      GroupLift R (label, es) (label, es')

/-- A tree, and the same tree with some more of its nodes marked as broken off. -/
inductive Node.Relaxed : Node → Node → Prop where
  | mk {rule : Rule} {groups groups' : List (Label × List (Element Node))} {span : ByteSpan}
      {recovered recovered' : Bool} (flag : recovered = true → recovered' = true)
      (held : List.Forall₂ (GroupLift Node.Relaxed) groups groups') :
      Node.Relaxed ⟨rule, groups, span, recovered⟩ ⟨rule, groups', span, recovered'⟩

namespace Node

mutual

/-- A tree with the nodes at some places marked is the tree with more marks. -/
theorem relaxed_markedAt (places : Descent → Bool) : (n : Node) → n.Relaxed (n.markedAt places)
  | ⟨_, groups, _, recovered⟩ => by
    refine .mk (fun kept => ?_) (groups_markedAt places 0 groups)
    rw [kept, Bool.true_or]

/-- The same, for groups: each keeps its label. -/
theorem groups_markedAt (places : Descent → Bool) (i : Nat) :
    (gs : List (Label × List (Element Node))) →
      List.Forall₂ (GroupLift Node.Relaxed) gs (groupsMarkedAt places i gs)
  | [] => .nil
  | (label, es) :: rest =>
    .cons (.mk label (elements_markedAt places i 0 es)) (groups_markedAt places (i + 1) rest)

/-- The same, for elements: tokens stay, nodes are marked. -/
theorem elements_markedAt (places : Descent → Bool) (i j : Nat) :
    (es : List (Element Node)) →
      List.Forall₂ (Element.Lift Node.Relaxed) es (elementsMarkedAt places i j es)
  | [] => .nil
  | .node n :: rest => .cons (.node (relaxed_markedAt _ n)) (elements_markedAt places i (j + 1) rest)
  | .token t :: rest => .cons (.token t) (elements_markedAt places i (j + 1) rest)

end

end Node

/-! ### What the mark does not touch -/

namespace Element.Lift

variable {N : Type} {R : N → N → Prop} {e e' : Element N}

/-- Related elements are both nodes, and then related ones, or both none. -/
theorem node? (h : Lift R e e') : Option.Rel R e.node? e'.node? := by
  cases h with
  | node related => exact .some related
  | token t => exact .none

theorem token? (h : Lift R e e') : e'.token? = e.token? := by
  cases h <;> rfl

end Element.Lift

/-- The tokens among related elements are the same. -/
theorem filterMap_token?_of_lift {N : Type} {R : N → N → Prop} {es es' : List (Element N)}
    (h : List.Forall₂ (Element.Lift R) es es') :
    es'.filterMap Element.token? = es.filterMap Element.token? := by
  induction h with
  | nil => rfl
  | cons first _ ih => rw [List.filterMap_cons, List.filterMap_cons, first.token?, ih]

namespace Node.Relaxed

variable {n n' : Node}

/-- A marked node is of the same rule. -/
theorem rule (h : n.Relaxed n') : n'.rule = n.rule := by
  cases h
  rfl

/-- A marked node stands at the same place. -/
theorem span (h : n.Relaxed n') : n'.span = n.span := by
  cases h
  rfl

/-- What was marked stays marked. -/
theorem recovered (h : n.Relaxed n') : n.recovered = true → n'.recovered = true := by
  cases h with
  | mk flag _ => exact flag

/-- The groups are the same up to marks. -/
theorem groups (h : n.Relaxed n') : List.Forall₂ (GroupLift Node.Relaxed) n.groups n'.groups := by
  cases h with
  | mk _ held => exact held

/-- Under each label there is the same, up to marks. -/
theorem elements (h : n.Relaxed n') (label : Label) :
    List.Forall₂ (Element.Lift Node.Relaxed) (n.elements label) (n'.elements label) := by
  have held := h.groups
  unfold Node.elements
  generalize n.groups = gs at held ⊢
  generalize n'.groups = gs' at held ⊢
  induction held with
  | nil => exact .nil
  | @cons _ _ gs gs' first _ ih =>
    -- labels are alike, so the group that is found is at the same place
    obtain @⟨l, es, es', held⟩ := first
    rw [List.find?_cons, List.find?_cons]
    by_cases same : (l == label) = true
    · simp only [same]
      exact held
    · simp only [same]
      exact ih

/-- There are elements under the same labels. -/
theorem has (h : n.Relaxed n') (label : Label) : n'.has label = n.has label := by
  have held := h.groups
  unfold Node.has
  generalize n.groups = gs at held ⊢
  generalize n'.groups = gs' at held ⊢
  induction held with
  | nil => rfl
  | cons first _ ih =>
    obtain ⟨l, -⟩ := first
    rw [List.any_cons, List.any_cons, ih]

/-- There are the same readings of each rule, up to marks. -/
theorem nodes (h : n.Relaxed n') (r : Rule) :
    List.Forall₂ Node.Relaxed (n.nodes r) (n'.nodes r) :=
  List.rel_filterMap (fun _ _ => Element.Lift.node?) (h.elements (.rule r))

/-- The children are the same up to marks. -/
theorem children (h : n.Relaxed n') : List.Forall₂ Node.Relaxed n.children n'.children := by
  refine List.rel_flatMap h.groups ?_
  rintro _ _ ⟨l, held⟩
  exact List.rel_filterMap (fun _ _ => Element.Lift.node?) held

/-- The token that met a demand is the same. -/
theorem token? (h : n.Relaxed n') (demand : TokenKind) : n'.token? demand = n.token? demand := by
  rw [Node.token?, Node.tokens, filterMap_token?_of_lift (h.elements (.token demand))]
  rfl

/-- All tokens are the same. -/
theorem labelledTokens (h : n.Relaxed n') : n'.labelledTokens = n.labelledTokens := by
  have held := h.groups
  unfold Node.labelledTokens
  generalize n.groups = gs at held ⊢
  generalize n'.groups = gs' at held ⊢
  induction held with
  | nil => rfl
  | cons first _ ih =>
    obtain ⟨l, held⟩ := first
    rw [List.flatMap_cons, List.flatMap_cons, ih]
    cases l with
    | rule r => rfl
    | token demand =>
      show List.filterMap _ _ ++ _ = List.filterMap _ _ ++ _
      rw [filterMap_token?_of_lift held]

end Node.Relaxed

/-! ## Makings that keep their results -/

/-- What one making gives, the other gives too. -/
def Keeps {α : Type} (x x' : Build α) : Prop := ∀ a, x = .ok a → x' = .ok a

namespace Keeps

variable {α β : Type} {x x' : Build α}

theorem rfl : Keeps x x := fun _ made => made

/-- A result is kept if it is kept by both steps. -/
theorem bind {f f' : α → Build β} (hx : Keeps x x') (hf : ∀ a, Keeps (f a) (f' a)) :
    Keeps (x >>= f) (x' >>= f') := by
  intro b made
  obtain ⟨a, ha, hb⟩ := bind_eq_ok_iff.mp made
  rw [hx a ha]
  exact hf a b hb

/-- A function of a result is kept if the result is. -/
theorem map (f : α → β) (hx : Keeps x x') : Keeps (x.map f) (x'.map f) := by
  intro b made
  cases found : x with
  | error e =>
    rw [found] at made
    cases made
  | ok a =>
    rw [found] at made
    rw [hx a found]
    exact made

/-- One by one kept, what is made of a row is kept. -/
theorem mapM {f : Node → Build α} {cs cs' : List Node}
    (h : List.Forall₂ (fun c c' => Keeps (f c) (f c')) cs cs') : Keeps (cs.mapM f) (cs'.mapM f) := by
  induction h with
  | nil => exact rfl
  | cons first _ ih =>
    rw [List.mapM_cons, List.mapM_cons]
    exact first.bind fun a => ih.bind fun as => rfl

end Keeps

/-- The related pairs of two rows, with the first of each still known to stand in its row. -/
theorem forall₂_of_mem {α β : Type} {R S : α → β → Prop} {as : List α} {bs : List β}
    (h : List.Forall₂ R as bs) (imp : ∀ a ∈ as, ∀ b, R a b → S a b) : List.Forall₂ S as bs := by
  induction h with
  | nil => exact .nil
  | cons first _ ih =>
    exact .cons (imp _ List.mem_cons_self _ first)
      (ih fun a ha => imp a (List.mem_cons_of_mem _ ha))

/-! ### Looking into nodes -/

namespace Node.Relaxed

variable {α : Type} {n n' : Node}

/-- A gap that is no error stays none.  This is the one place where the mark is asked for. -/
theorem lack (h : n.Relaxed n') (gap : Gap) :
    Keeps (n.lack gap : Build (Option α)) (n'.lack gap) := by
  intro a made
  unfold Node.lack at made ⊢
  split at made
  · rename_i broken
    rw [if_pos (h.recovered broken)]
    exact made
  · cases made

/-- A required token is found whether the node is marked or not; where there is none, a mark can
    only turn the error into a result. -/
theorem requireToken (h : n.Relaxed n') (demand : TokenKind) :
    Keeps (n.requireToken demand) (n'.requireToken demand) := by
  unfold Node.requireToken
  rw [h.token?]
  split
  · exact .rfl
  · exact h.lack _

variable {r : Rule} {f : Node → Build α}

/-- What is made of each child under a rule is kept. -/
theorem made (h : n.Relaxed n')
    (hf : ∀ c ∈ n.children, ∀ c', c.Relaxed c' → Keeps (f c) (f c')) :
    List.Forall₂ (fun c c' => Keeps (f c) (f c')) (n.nodes r) (n'.nodes r) :=
  forall₂_of_mem (h.nodes r) fun c hc c' => hf c (mem_children_of_mem_nodes hc) c'

/-- What is made of the first child is kept if the maker keeps its results. -/
theorem withFirst (h : n.Relaxed n')
    (hf : ∀ c ∈ n.children, ∀ c', c.Relaxed c' → Keeps (f c) (f c')) :
    Keeps (n.withFirst r fun c _ => f c) (n'.withFirst r fun c _ => f c) := by
  have made : List.Forall₂ _ (n.nodes r) (n'.nodes r) := h.made hf
  rw [withFirst_eq, withFirst_eq]
  generalize n.nodes r = cs, n'.nodes r = cs' at made
  cases made with
  | nil => exact .rfl
  | cons first _ => exact first.map some

/-- What is made of a required child is kept, for a mark is asked for only if there is no such
    child. -/
theorem withRequired (h : n.Relaxed n')
    (hf : ∀ c ∈ n.children, ∀ c', c.Relaxed c' → Keeps (f c) (f c')) :
    Keeps (n.withRequired r fun c _ => f c) (n'.withRequired r fun c _ => f c) := by
  have made : List.Forall₂ _ (n.nodes r) (n'.nodes r) := h.made hf
  rw [withRequired_eq, withRequired_eq]
  generalize n.nodes r = cs, n'.nodes r = cs' at made
  cases made with
  | nil => exact h.lack _
  | cons first _ => exact first.map some

/-- What is made of each child is kept if the maker keeps its results. -/
theorem withEach (h : n.Relaxed n')
    (hf : ∀ c ∈ n.children, ∀ c', c.Relaxed c' → Keeps (f c) (f c')) :
    Keeps (n.withEach r fun c _ => f c) (n'.withEach r fun c _ => f c) := by
  rw [withEach_eq, withEach_eq]
  exact .mapM (h.made hf)

/-- And so are those that are there, where some may be lacking. -/
theorem withPresent {f : Node → Build (Option α)} (h : n.Relaxed n')
    (hf : ∀ c ∈ n.children, ∀ c', c.Relaxed c' → Keeps (f c) (f c')) :
    Keeps (n.withPresent r fun c _ => f c) (n'.withPresent r fun c _ => f c) :=
  (h.withEach hf).map _

/-- The makers for a child and for its relaxed form are chosen alike, by its rule.  A child for
    which there is none is an error, marked or not. -/
theorem withChosen {alternatives : List Label} {f : Node → Option (Build (Option α))}
    (h : n.Relaxed n')
    (hf : ∀ c ∈ n.children, ∀ c', c.Relaxed c' → Option.Rel Keeps (f c) (f c')) :
    Keeps (n.withChosen alternatives fun c _ => f c)
      (n'.withChosen alternatives fun c _ => f c) := by
  have chosen : List.Forall₂ (fun c c' => Option.Rel Keeps (f c) (f c')) n.children n'.children :=
    forall₂_of_mem h.children hf
  rw [withChosen_eq, withChosen_eq]
  generalize n.children = cs, n'.children = cs' at chosen
  cases chosen with
  | nil => exact h.lack _
  | @cons c c' _ _ first _ =>
    -- there is a maker for both or for neither
    dsimp only
    generalize f c = maker, f c' = maker' at first
    cases first with
    | some kept => exact kept
    | none => exact nofun

end Node.Relaxed

section Makers

variable {n n' : Node}

/-! ## Names and types -/

/-- A name is kept. -/
theorem Name.ofNode_keeps (demand : TokenKind) (h : n.Relaxed n') :
    Keeps (Name.ofNode demand n) (Name.ofNode demand n') :=
  (h.requireToken demand).bind fun _ => .rfl

/-- A variable is kept. -/
theorem Variable.ofNode_keeps (h : n.Relaxed n') :
    Keeps (Variable.ofNode n) (Variable.ofNode n') := by
  refine (Name.ofNode_keeps _ h).bind fun _ => ?_
  rw [h.span]
  exact .rfl

/-- A named type is kept. -/
theorem NamedType.ofNode_keeps (h : n.Relaxed n') :
    Keeps (NamedType.ofNode n) (NamedType.ofNode n') := by
  refine (Name.ofNode_keeps _ h).bind fun _ => ?_
  rw [h.span]
  exact .rfl

theorem NamedType.within_keeps (h : n.Relaxed n') :
    Keeps (NamedType.within n) (NamedType.within n') :=
  (h.withRequired fun _ _ _ => NamedType.ofNode_keeps).bind fun _ => .rfl

theorem NamedType.allWithin_keeps (h : n.Relaxed n') :
    Keeps (NamedType.allWithin n) (NamedType.allWithin n') :=
  h.withEach fun _ _ _ => NamedType.ofNode_keeps

mutual

/-- A type is kept, for the mark that rules out null is a token. -/
theorem TypeReference.ofNode_keeps (n n' : Node) (h : n.Relaxed n') :
    Keeps (TypeReference.ofNode n) (TypeReference.ofNode n') := by
  rw [TypeReference.ofNode, TypeReference.ofNode, h.span, h.has]
  refine .bind (h.withChosen fun c hc c' related => ?_) fun _ => .rfl
  rw [related.rule]
  split
  · exact .some ((NamedType.ofNode_keeps related).map _)
  · exact .some ((TypeReference.listOfNode_keeps c c' related).map _)
  · exact .none
termination_by sizeOf n
decreasing_by exact Node.sizeOf_lt_of_mem_children ‹_›

/-- A list type is kept. -/
theorem TypeReference.listOfNode_keeps (n n' : Node) (h : n.Relaxed n') :
    Keeps (TypeReference.listOfNode n) (TypeReference.listOfNode n') := by
  rw [TypeReference.listOfNode, TypeReference.listOfNode, h.span]
  exact (h.withRequired fun c hc c' => TypeReference.ofNode_keeps c c').bind fun _ => .rfl
termination_by sizeOf n
decreasing_by exact Node.sizeOf_lt_of_mem_children ‹_›

end

theorem TypeReference.within_keeps (h : n.Relaxed n') :
    Keeps (TypeReference.within n) (TypeReference.within n') :=
  (h.withRequired fun c _ c' => TypeReference.ofNode_keeps c c').bind fun _ => .rfl

/-! ## Values -/

namespace Value

/-- A number or a string is made of its token, which no mark touches. -/
theorem literal?_relaxed (h : n.Relaxed n') : literal? n' = literal? n := by
  unfold literal?
  rw [h.token?, h.token?, h.token?]

/-- A broken node in which neither word stands is left out; the words are looked for first. -/
theorem booleanOfNode_keeps (h : n.Relaxed n') :
    Keeps (booleanOfNode n) (booleanOfNode n') := by
  unfold booleanOfNode
  rw [h.has, h.has, h.span]
  split
  · exact .rfl
  · split
    · exact .rfl
    · exact h.lack _

/-- Null is kept. -/
theorem nullOfNode_keeps (h : n.Relaxed n') : Keeps (nullOfNode n) (nullOfNode n') := by
  refine (h.requireToken _).bind fun _ => ?_
  rw [h.span]
  exact .rfl

theorem enumOfNode_keeps (h : n.Relaxed n') : Keeps (enumOfNode n) (enumOfNode n') :=
  (h.requireToken _).bind fun _ => .rfl

end Value

mutual

/-- A value is kept whichever alternative it is. -/
theorem Value.ofNode_keeps (n n' : Node) (h : n.Relaxed n') :
    Keeps (Value.ofNode n) (Value.ofNode n') := by
  rw [Value.ofNode, Value.ofNode, Value.literal?_relaxed h]
  split
  · exact .rfl
  · refine h.withChosen fun c hc c' related => ?_
    rw [related.rule]
    split
    · exact .some ((Variable.ofNode_keeps related).map _)
    · exact .some (Value.booleanOfNode_keeps related)
    · exact .some ((Value.nullOfNode_keeps related).map _)
    · exact .some (Value.enumOfNode_keeps related)
    · exact .some ((Value.listOfNode_keeps c c' related).map _)
    · exact .some ((Value.objectOfNode_keeps c c' related).map _)
    · exact .none
termination_by sizeOf n
decreasing_by all_goals exact Node.sizeOf_lt_of_mem_children ‹_›

/-- A list is kept with its values. -/
theorem Value.listOfNode_keeps (n n' : Node) (h : n.Relaxed n') :
    Keeps (Value.listOfNode n) (Value.listOfNode n') := by
  rw [Value.listOfNode, Value.listOfNode, h.span]
  exact (h.withPresent fun c hc c' => Value.ofNode_keeps c c').bind fun _ => .rfl
termination_by sizeOf n
decreasing_by exact Node.sizeOf_lt_of_mem_children ‹_›

/-- An object is kept with its fields. -/
theorem Value.objectOfNode_keeps (n n' : Node) (h : n.Relaxed n') :
    Keeps (Value.objectOfNode n) (Value.objectOfNode n') := by
  rw [Value.objectOfNode, Value.objectOfNode, h.span]
  exact (h.withEach fun c hc c' => ObjectField.ofNode_keeps c c').bind fun _ => .rfl
termination_by sizeOf n
decreasing_by exact Node.sizeOf_lt_of_mem_children ‹_›

/-- An object field is kept with its name and its value. -/
theorem ObjectField.ofNode_keeps (n n' : Node) (h : n.Relaxed n') :
    Keeps (ObjectField.ofNode n) (ObjectField.ofNode n') := by
  have name := Name.ofNode_keeps Category.name h
  have value : Keeps (n.withRequired .value fun c _ => Value.ofNode c)
      (n'.withRequired .value fun c _ => Value.ofNode c) :=
    h.withRequired fun c hc c' => Value.ofNode_keeps c c'
  rw [ObjectField.ofNode, ObjectField.ofNode, h.span]
  exact name.bind fun _ => value.bind fun _ => .rfl
termination_by sizeOf n
decreasing_by exact Node.sizeOf_lt_of_mem_children ‹_›

end

theorem Value.within_keeps (h : n.Relaxed n') : Keeps (Value.within n) (Value.within n') :=
  (h.withRequired fun c _ c' => Value.ofNode_keeps c c').bind fun _ => .rfl

/-! ## Arguments and directives -/

/-- A list that is made of an optional child is kept if its maker keeps its results. -/
theorem listWithin_keeps {α : Type} {f : Node → Build (List α)} (h : n.Relaxed n') (r : Rule)
    (hf : ∀ {c c' : Node}, c.Relaxed c' → Keeps (f c) (f c')) :
    Keeps (listWithin n r f) (listWithin n' r f) :=
  (h.withFirst fun _ _ _ => hf).bind fun _ => .rfl

/-- An argument is kept with its name and its value. -/
theorem Argument.ofNode_keeps (h : n.Relaxed n') :
    Keeps (Argument.ofNode n) (Argument.ofNode n') := by
  refine (Name.ofNode_keeps _ h).bind fun _ => (Value.within_keeps h).bind fun _ => ?_
  rw [h.span]
  exact .rfl

theorem Argument.allWithin_keeps (h : n.Relaxed n') :
    Keeps (Argument.allWithin n) (Argument.allWithin n') :=
  h.withEach fun _ _ _ => Argument.ofNode_keeps

/-- A directive is kept with its name and its arguments. -/
theorem Directive.ofNode_keeps (h : n.Relaxed n') :
    Keeps (Directive.ofNode n) (Directive.ofNode n') := by
  have arguments := listWithin_keeps h .arguments Argument.allWithin_keeps
  refine (Name.ofNode_keeps _ h).bind fun _ => arguments.bind fun _ => ?_
  rw [h.span]
  exact .rfl

theorem Directive.allWithin_keeps (h : n.Relaxed n') :
    Keeps (Directive.allWithin n) (Directive.allWithin n') :=
  h.withEach fun _ _ _ => Directive.ofNode_keeps

/-- The directives that are attached to what a node stands for are kept. -/
theorem Directive.attached_keeps (h : n.Relaxed n') :
    Keeps (Directive.attached n) (Directive.attached n') :=
  listWithin_keeps h .directives Directive.allWithin_keeps

/-! ## Selections -/

theorem fragmentName_keeps (h : n.Relaxed n') : Keeps (fragmentName n) (fragmentName n') :=
  (h.withRequired fun _ _ _ => Name.ofNode_keeps _).bind fun _ => .rfl

/-- A spread is kept with its name and its directives. -/
theorem FragmentSpread.ofNode_keeps (h : n.Relaxed n') :
    Keeps (FragmentSpread.ofNode n) (FragmentSpread.ofNode n') := by
  refine (fragmentName_keeps h).bind fun _ => (Directive.attached_keeps h).bind fun _ => ?_
  rw [h.span]
  exact .rfl

mutual

/-- A selection is kept whichever alternative it is. -/
theorem Selection.ofNode_keeps (n n' : Node) (h : n.Relaxed n') :
    Keeps (Selection.ofNode n) (Selection.ofNode n') := by
  rw [Selection.ofNode, Selection.ofNode]
  refine h.withChosen fun c hc c' related => ?_
  rw [related.rule]
  split
  · exact .some ((Field.ofNode_keeps c c' related).map _)
  · exact .some ((FragmentSpread.ofNode_keeps related).map _)
  · exact .some ((InlineFragment.ofNode_keeps c c' related).map _)
  · exact .none
termination_by sizeOf n
decreasing_by all_goals exact Node.sizeOf_lt_of_mem_children ‹_›

/-- A field is kept with its alias, name, arguments, directives and selections. -/
theorem Field.ofNode_keeps (n n' : Node) (h : n.Relaxed n') :
    Keeps (Field.ofNode n) (Field.ofNode n') := by
  have aliasName : Keeps (n.withFirst .alias fun c _ => Name.ofNode Category.name c)
      (n'.withFirst .alias fun c _ => Name.ofNode Category.name c) :=
    h.withFirst fun _ _ _ => Name.ofNode_keeps _
  have name := Name.ofNode_keeps Category.name h
  have arguments := listWithin_keeps h .arguments Argument.allWithin_keeps
  have directives := Directive.attached_keeps h
  have selections : Keeps (n.withFirst .selectionSet fun c _ => SelectionSet.ofNode c)
      (n'.withFirst .selectionSet fun c _ => SelectionSet.ofNode c) :=
    h.withFirst fun c hc c' => SelectionSet.ofNode_keeps c c'
  rw [Field.ofNode, Field.ofNode, h.span]
  exact aliasName.bind fun _ => name.bind fun _ => arguments.bind fun _ => directives.bind fun _ =>
    selections.bind fun _ => .rfl
termination_by sizeOf n
decreasing_by exact Node.sizeOf_lt_of_mem_children ‹_›

/-- An inline fragment is kept with its type condition, directives and selections. -/
theorem InlineFragment.ofNode_keeps (n n' : Node) (h : n.Relaxed n') :
    Keeps (InlineFragment.ofNode n) (InlineFragment.ofNode n') := by
  have typeCondition : Keeps (n.withFirst .typeCondition fun c _ => NamedType.within c)
      (n'.withFirst .typeCondition fun c _ => NamedType.within c) :=
    h.withFirst fun _ _ _ => NamedType.within_keeps
  have directives := Directive.attached_keeps h
  have selections : Keeps (n.withRequired .selectionSet fun c _ => SelectionSet.ofNode c)
      (n'.withRequired .selectionSet fun c _ => SelectionSet.ofNode c) :=
    h.withRequired fun c hc c' => SelectionSet.ofNode_keeps c c'
  rw [InlineFragment.ofNode, InlineFragment.ofNode, h.span]
  exact typeCondition.bind fun _ => directives.bind fun _ => selections.bind fun _ => .rfl
termination_by sizeOf n
decreasing_by exact Node.sizeOf_lt_of_mem_children ‹_›

/-- A selection set is kept with its selections. -/
theorem SelectionSet.ofNode_keeps (n n' : Node) (h : n.Relaxed n') :
    Keeps (SelectionSet.ofNode n) (SelectionSet.ofNode n') := by
  rw [SelectionSet.ofNode, SelectionSet.ofNode, h.span]
  exact (h.withPresent fun c hc c' => Selection.ofNode_keeps c c').bind fun _ => .rfl
termination_by sizeOf n
decreasing_by exact Node.sizeOf_lt_of_mem_children ‹_›

end

theorem SelectionSet.within_keeps (h : n.Relaxed n') :
    Keeps (SelectionSet.within n) (SelectionSet.within n') :=
  (h.withRequired fun c _ c' => SelectionSet.ofNode_keeps c c').bind fun _ => .rfl

end Makers

end GraphQL
