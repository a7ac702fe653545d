/-
  What is superfluous in a text.

  Some tokens may be there or not, and the document is the same: a mark before the first item of a
  list, and the keyword of a query that has nothing but a selection set.  `Node.superfluous` finds
  them in a tree, each under the node of the rule that lets it be left out.

  `Spells taken dropped signs` says that some tokens without the dropped ones read `signs`.  It is
  put together piece by piece (`Spells.append`), which is where no token may stand twice, and it
  does not depend on the order in which a tree lists the dropped tokens.
-/
import GraphQL.Proofs.Signs
import GraphQL.Proofs.TreeContents

namespace GraphQL

/-! ## Superfluous tokens of a tree -/

namespace Node

/-- The mark before the first item of a list.  Other marks stand between two items, so it is there
    if there are as many marks as items. -/
def leadingMark (n : Node) (mark : Punctuator) (item : Rule) : List Token :=
  let marks := n.tokens (.punctuator mark)
  if marks.length = (n.nodes item).length then marks.take 1 else []

/-- The keyword of a query that has no name, no variables and no directives. -/
def bareKeyword (n : Node) : List Token :=
  if (n.tokens Category.name).isEmpty && (n.nodes .variableDefinitions).isEmpty
      && (n.nodes .directives).isEmpty then
    (n.nodes .operationType).flatMap fun kind => kind.tokens Word.query
  else []

/-- The tokens that may be left out of the text of a node, by its rule. -/
def ownSuperfluous (n : Node) : List Token :=
  match n.rule with
  | .unionMemberTypes => n.leadingMark .bar .namedType
  | .directiveLocations => n.leadingMark .bar .directiveLocation
  | .implementsInterfaces => n.leadingMark .ampersand .namedType
  | .operationDefinition => n.bareKeyword
  | _ => []

mutual

/-- The superfluous tokens of a tree. -/
def superfluous : Node → List Token
  | n@⟨_, groups, _, _⟩ => n.ownSuperfluous ++ superfluousOfGroups groups

/-- The superfluous tokens of the groups of a node. -/
def superfluousOfGroups : List (Label × List (Element Node)) → List Token
  | [] => []
  | (_, es) :: rest => superfluousOfElements es ++ superfluousOfGroups rest

/-- The superfluous tokens of the elements under one label. -/
def superfluousOfElements : List (Element Node) → List Token
  | [] => []
  | .node n :: rest => n.superfluous ++ superfluousOfElements rest
  | .token _ :: rest => superfluousOfElements rest

end

end Node

/-- The tokens of a text that are not superfluous. -/
def essentialTokens (tree : Node) (tokens : List Token) : List Token :=
  tokens.filter fun t => !tree.superfluous.contains t

/-- The superfluous tokens of an element. -/
def Element.superfluous : Element Node → List Token
  | .node n => n.superfluous
  | .token _ => []

/-- The superfluous tokens of some parts. -/
def superfluousOfParts (parts : List Part) : List Token :=
  parts.flatMap fun (_, e) => e.superfluous

@[simp] theorem superfluousOfParts_nil : superfluousOfParts [] = [] := rfl

@[simp] theorem superfluousOfParts_append (ps qs : List Part) :
    superfluousOfParts (ps ++ qs) = superfluousOfParts ps ++ superfluousOfParts qs :=
  List.flatMap_append

namespace Node

theorem superfluousOfElements_eq (es : List (Element Node)) :
    superfluousOfElements es = es.flatMap Element.superfluous := by
  induction es with
  | nil => rfl
  | cons e rest ih => cases e <;> simp [superfluousOfElements, Element.superfluous, ih]

theorem superfluousOfGroups_eq (groups : List (Label × List (Element Node))) :
    superfluousOfGroups groups = (groups.flatMap (·.2)).flatMap Element.superfluous := by
  induction groups with
  | nil => rfl
  | cons group rest ih => simp [superfluousOfGroups, superfluousOfElements_eq, ih]

/-- The superfluous tokens of a node are its own and those of its parts. -/
theorem superfluous_ofParts (rule : Rule) (parts : List Part) (recovered : Bool) :
    (ofParts rule parts recovered).superfluous.Perm
      ((ofParts rule parts recovered).ownSuperfluous ++ superfluousOfParts parts) := by
  refine List.Perm.append_left _ ?_
  show (superfluousOfGroups (group parts)).Perm _
  rw [superfluousOfGroups_eq]
  have h := (perm_group parts).flatMap_right Element.superfluous
  rwa [List.flatMap_map] at h

end Node

/-! ## Reading without the superfluous -/

/-- Some tokens, without the dropped ones among them, read as signs. -/
structure Spells (taken dropped : List Token) (signs : List Sign) : Prop where
  subset : dropped ⊆ taken
  reads : taken.Nodup → (taken.filter fun t => !dropped.contains t).map Token.sign = signs

namespace Spells

variable {taken dropped more moreDropped : List Token} {signs moreSigns : List Sign}

theorem nil : Spells [] [] [] := ⟨fun _ h => h, fun _ => rfl⟩

/-- A token reads as its sign. -/
theorem token {t : Token} {s : Sign} (sign : t.sign = s) : Spells [t] [] [s] :=
  ⟨List.nil_subset _, fun _ => by simp [sign]⟩

/-- A token that is dropped reads as nothing. -/
theorem drop (t : Token) : Spells [t] [t] [] := ⟨fun _ h => h, fun _ => by simp⟩

/-- Of tokens that are all there once, the dropped ones of the front are not behind it, and the
    other way round; so what is kept of both is what is kept of each. -/
theorem append (front : Spells taken dropped signs) (back : Spells more moreDropped moreSigns) :
    Spells (taken ++ more) (dropped ++ moreDropped) (signs ++ moreSigns) where
  subset := List.append_subset.mpr
    ⟨List.subset_append_of_subset_left _ front.subset,
      List.subset_append_of_subset_right _ back.subset⟩
  reads nodup := by
    obtain ⟨once, onceMore, apart⟩ := List.nodup_append.mp nodup
    have keptFront : (taken.filter fun t => !(dropped ++ moreDropped).contains t)
        = taken.filter fun t => !dropped.contains t := by
      refine List.filter_congr fun t ht => ?_
      have other : t ∉ moreDropped := fun h => apart t ht t (back.subset h) rfl
      simp [other]
    have keptBack : (more.filter fun t => !(dropped ++ moreDropped).contains t)
        = more.filter fun t => !moreDropped.contains t := by
      refine List.filter_congr fun t ht => ?_
      have other : t ∉ dropped := fun h => apart t (front.subset h) t ht rfl
      simp [other]
    rw [List.filter_append, List.map_append, keptFront, keptBack, front.reads once,
      back.reads onceMore]

theorem cons {t : Token} {s : Sign} (sign : t.sign = s) (rest : Spells taken dropped signs) :
    Spells (t :: taken) dropped (s :: signs) := (Spells.token sign).append rest

/-- What stands between two marks. -/
theorem between {opening closing : Punctuator} {t t' : Token} (opens : t.sign = opening.sign)
    (closes : t'.sign = closing.sign) (inside : Spells taken dropped signs) :
    Spells (t :: (taken ++ [t'])) dropped (GraphQL.between opening closing signs) := by
  have closed := inside.append (.token closes)
  rw [List.append_nil] at closed
  exact .cons opens closed

/-- The order in which the dropped tokens are listed does not matter. -/
theorem perm {others : List Token} (h : Spells taken dropped signs) (same : others.Perm dropped) :
    Spells taken others signs where
  subset := fun _ ht => h.subset (same.subset ht)
  reads nodup := by
    rw [← h.reads nodup]
    congr 2
    funext t
    simp [same.mem_iff]

/-- A node reads as its parts do, without its own superfluous tokens. -/
theorem ofParts {n : Node} {rule : Rule} {parts : List Part} {recovered : Bool}
    (laid : n = .ofParts rule parts recovered)
    (h : Spells taken (n.ownSuperfluous ++ superfluousOfParts parts) signs) :
    Spells taken n.superfluous signs := by
  subst laid
  exact h.perm (Node.superfluous_ofParts rule parts recovered)

/-- A node of a rule that has no superfluous tokens reads as its parts do. -/
theorem plain {n : Node} {rule : Rule} {parts : List Part} {recovered : Bool}
    (laid : n = .ofParts rule parts recovered)
    (h : Spells taken (superfluousOfParts parts) signs)
    (none : ∀ parts, (Node.ofParts rule parts recovered).ownSuperfluous = []) :
    Spells taken n.superfluous signs := by
  refine .ofParts laid ?_
  rw [laid, none]
  exact h

end Spells

end GraphQL
