/-
  Selections and directives from trees.
-/
import GraphQL.Document.OfTree.Value
import GraphQL.Document.Selection

namespace GraphQL

/-- The list of what a node holds in its child under a rule; empty if there is no such child. -/
def listWithin {α : Type} (n : Node) (r : Rule) (f : Node → Build (List α)) : Build (List α) := do
  let list ← n.withFirst r fun c _ => f c
  return list.getD []

/-! ## Arguments and directives -/

/-- The argument of a node. -/
def Argument.ofNode (n : Node) : Build Argument := do
  let name ← Name.ofNode Category.name n
  let value ← Value.within n
  return { name, value := value.getD .missing, loc := n.span }

/-- The arguments that a node holds. -/
def Argument.allWithin (n : Node) : Build (List Argument) :=
  n.withEach .argument fun c _ => Argument.ofNode c

/-- The directive of a node. -/
def Directive.ofNode (n : Node) : Build Directive := do
  let name ← Name.ofNode Category.name n
  let arguments ← listWithin n .arguments Argument.allWithin
  return { name, arguments, loc := n.span }

/-- The directives that a node holds. -/
def Directive.allWithin (n : Node) : Build (List Directive) :=
  n.withEach .directive fun c _ => Directive.ofNode c

/-- The directives that are attached to what a node stands for. -/
def Directive.attached (n : Node) : Build (List Directive) :=
  listWithin n .directives Directive.allWithin

/-! ## Fragments by name -/

/-- The name of a fragment in a node. -/
def fragmentName (n : Node) : Build Name := do
  let name ← n.withRequired .fragmentName fun c _ => Name.ofNode Category.nameButOn c
  return name.getD .missing

/-- The place of a fragment in a node. -/
def FragmentSpread.ofNode (n : Node) : Build FragmentSpread := do
  let name ← fragmentName n
  let directives ← Directive.attached n
  return { name, directives, loc := n.span }

/-! ## Selections -/

/-- What a selection chooses from. -/
def Selection.alternatives : List Label :=
  [.rule .field, .rule .fragmentSpread, .rule .inlineFragment]

mutual

/-- The selection of a node. -/
def Selection.ofNode (n : Node) : Build (Option Selection) :=
  n.withChosen Selection.alternatives fun c _ =>
    match c.rule with
    | .field => some ((Field.ofNode c).map fun f => some (.field f))
    | .fragmentSpread => some ((FragmentSpread.ofNode c).map fun s => some (.spread s))
    | .inlineFragment => some ((InlineFragment.ofNode c).map fun f => some (.inline f))
    | _ => none
termination_by sizeOf n
decreasing_by all_goals exact Node.sizeOf_lt_of_mem_children ‹_›

/-- The field of a node. -/
def Field.ofNode (n : Node) : Build Field := do
  let aliasName ← n.withFirst .alias fun c _ => Name.ofNode Category.name c
  let name ← Name.ofNode Category.name n
  let arguments ← listWithin n .arguments Argument.allWithin
  let directives ← Directive.attached n
  let selectionSet ← n.withFirst .selectionSet fun c _ => SelectionSet.ofNode c
  return { aliasName, name, arguments, directives, selectionSet, loc := n.span }
termination_by sizeOf n
decreasing_by exact Node.sizeOf_lt_of_mem_children ‹_›

/-- The fragment in place of a node. -/
def InlineFragment.ofNode (n : Node) : Build InlineFragment := do
  let typeCondition ← n.withFirst .typeCondition fun c _ => NamedType.within c
  let directives ← Directive.attached n
  let selectionSet ← n.withRequired .selectionSet fun c _ => SelectionSet.ofNode c
  return { typeCondition, directives, selectionSet := selectionSet.getD .missing, loc := n.span }
termination_by sizeOf n
decreasing_by exact Node.sizeOf_lt_of_mem_children ‹_›

/-- The selection set of a node. -/
def SelectionSet.ofNode (n : Node) : Build SelectionSet := do
  let selections ← n.withPresent .selection fun c _ => Selection.ofNode c
  return { selections, loc := n.span }
termination_by sizeOf n
decreasing_by exact Node.sizeOf_lt_of_mem_children ‹_›

end

/-- The selection set that a node holds. -/
def SelectionSet.within (n : Node) : Build SelectionSet := do
  let selectionSet ← n.withRequired .selectionSet fun c _ => SelectionSet.ofNode c
  return selectionSet.getD .missing

end GraphQL
