/-
  What a tree may lack, and access to what it holds.

  A reading that was broken off by a mistake may lack parts.  Whoever asks for such a part is told
  that there is none, and fills it in or leaves it out.  A reading that was not broken off holds all
  that its production asks for, so a gap in it shows that the tree was not made by the usual
  grammar; it is then an error.  `Node.lack` makes this one distinction for all kinds of gaps.

  The functions that go down to a child hand over the proof that it is one.  That is why functions
  which are defined through them end.
-/
import GraphQL.Tree

namespace GraphQL

/-! ## Gaps -/

/-- What a node lacks. -/
inductive Gap where
  /-- A nested reading of a rule. -/
  | node (rule : Rule)
  /-- A token under a demand. -/
  | token (demand : TokenKind)
  /-- Any of the things that it chooses from; something else may stand in their place. -/
  | choice (alternatives : List Label) (found : Option Rule)
  /-- The name of a place where a directive may stand. -/
  | location
deriving DecidableEq, Repr

/-- A name between grave accents. -/
def accented (name : String) : String := "`" ++ name ++ "`"

/-- The wording of a gap. -/
def Gap.text : Gap → String
  | .node rule => "a " ++ accented rule.name ++ " child"
  | .token demand => "a " ++ accented demand.label ++ " token"
  | .choice alternatives found =>
    "one of: " ++ ", ".intercalate (alternatives.map fun l => accented l.text)
      ++ match found with
        | some rule => " (found " ++ accented rule.name ++ " instead)"
        | none => ""
  | .location => "a directive location token"

/-- Why a tree is no document. -/
inductive BuildError where
  /-- A node that was not broken off lacks something. -/
  | inconsistent (rule : Rule) (gap : Gap)
  /-- The outermost node is not a reading of a document. -/
  | unexpectedRoot (found : Rule)
deriving DecidableEq, Repr

/-- The wording of an error. -/
def BuildError.message : BuildError → String
  | .inconsistent rule gap =>
    "Internal consistency fault: " ++ accented rule.name
      ++ " node completed without error recovery but is missing " ++ gap.text
  | .unexpectedRoot found =>
    "Expected a " ++ accented Rule.document.name
      ++ " node at the root of the CST but found " ++ accented found.name

/-- What is made from a tree, or why nothing can be made. -/
abbrev Build (α : Type) := Except BuildError α

namespace Node

variable {α : Type}

/-- Nothing, where a broken reading lacks something. -/
def lack (n : Node) (gap : Gap) : Build (Option α) :=
  if n.recovered then .ok none else .error (.inconsistent n.rule gap)

/-! ## Tokens -/

/-- The token under a demand. -/
def requireToken (n : Node) (demand : TokenKind) : Build (Option Token) :=
  match n.token? demand with
  | some t => .ok (some t)
  | none => n.lack (.token demand)

/-! ## Children -/

/-- Makes something of the first child under a rule, if there is one. -/
def withFirst (n : Node) (r : Rule) (f : (c : Node) → c ∈ n.children → Build α) :
    Build (Option α) :=
  match h : n.nodes r with
  | [] => .ok none
  | c :: _ => (f c (mem_children_of_mem_nodes (h ▸ List.mem_cons_self))).map some

/-- Makes something of the first child under a rule. -/
def withRequired (n : Node) (r : Rule) (f : (c : Node) → c ∈ n.children → Build α) :
    Build (Option α) :=
  match h : n.nodes r with
  | [] => n.lack (.node r)
  | c :: _ => (f c (mem_children_of_mem_nodes (h ▸ List.mem_cons_self))).map some

/-- Makes something of every child under a rule. -/
def withEach (n : Node) (r : Rule) (f : (c : Node) → c ∈ n.children → Build α) :
    Build (List α) :=
  (n.nodes r).attach.mapM fun c => f c.val (mem_children_of_mem_nodes c.property)

/-- Makes something of every child under a rule, and leaves out the children that stand for
    nothing. -/
def withPresent (n : Node) (r : Rule) (f : (c : Node) → c ∈ n.children → Build (Option α)) :
    Build (List α) :=
  (n.withEach r f).map (List.filterMap id)

/-- Makes something of the one child of a rule that chooses: the first child of any rule.  The
    maker has no result for a child that is not among the alternatives. -/
def withChosen (n : Node) (alternatives : List Label)
    (f : (c : Node) → c ∈ n.children → Option (Build (Option α))) : Build (Option α) :=
  match h : n.children with
  | [] => n.lack (.choice alternatives none)
  | c :: _ =>
    match f c (h ▸ List.mem_cons_self) with
    | some result => result
    | none => .error (.inconsistent n.rule (.choice alternatives (some c.rule)))

/-! A maker that does not ask for the proof that a child is one only looks at the child. -/

/-- A maker that does not ask where its child comes from makes something of the first child, if
    there is one. -/
theorem withFirst_eq (n : Node) (r : Rule) (f : Node → Build α) :
    n.withFirst r (fun c _ => f c) =
      match n.nodes r with
      | [] => .ok none
      | c :: _ => (f c).map some := by
  unfold withFirst
  split <;> rename_i held <;> simp only [held]

/-- The same, for a child that must be there: where it lacks there is a gap. -/
theorem withRequired_eq (n : Node) (r : Rule) (f : Node → Build α) :
    n.withRequired r (fun c _ => f c) =
      match n.nodes r with
      | [] => n.lack (.node r)
      | c :: _ => (f c).map some := by
  unfold withRequired
  split <;> rename_i held <;> simp only [held]

theorem withEach_eq (n : Node) (r : Rule) (f : Node → Build α) :
    n.withEach r (fun c _ => f c) = (n.nodes r).mapM f := by
  unfold withEach
  show (n.nodes r).attach.mapM (f ∘ Subtype.val) = _
  rw [← List.mapM_map, List.attach_map_subtype_val]

/-- The same, for a choice: the first child is made into what its rule stands for, and a rule that
    is no alternative is an error. -/
theorem withChosen_eq (n : Node) (alternatives : List Label)
    (f : Node → Option (Build (Option α))) :
    n.withChosen alternatives (fun c _ => f c) =
      match n.children with
      | [] => n.lack (.choice alternatives none)
      | c :: _ =>
        match f c with
        | some result => result
        | none => .error (.inconsistent n.rule (.choice alternatives (some c.rule))) := by
  unfold withChosen
  split <;> rename_i held <;> simp only [held]

end Node

end GraphQL
