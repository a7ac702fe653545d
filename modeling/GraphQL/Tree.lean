/-
  Concrete trees.

  A `Node` stands for one reading of a rule.  What the rule read is filed under labels: a nested
  reading under its rule, a token under the demand that it met, so that the name of a field is
  filed under "any name" whatever its kind.  Labels stand in the order in which they were first
  used, and under each label the elements in the order of the text.

  `Node.ofParts` files the parts of a reading and covers them with a span; a token that was put in
  has no place and widens no span.
-/
import GraphQL.Grammar.Opening
import GraphQL.Token

namespace GraphQL

/-- What an element is filed under. -/
inductive Label where
  | rule (r : Rule)
  | token (demand : TokenKind)
deriving DecidableEq, Repr

/-- The written form of a label. -/
def Label.text : Label → String
  | .rule r => r.name
  | .token demand => demand.label

/-- A nested reading or a token. -/
inductive Element (N : Type) where
  | node (n : N)
  | token (t : Token)
deriving Repr

/-- One reading of a rule. -/
structure Node where
  rule : Rule
  groups : List (Label × List (Element Node))
  span : ByteSpan
  /-- Whether the reading was broken off by a mistake; it may then lack parts. -/
  recovered : Bool

instance : Inhabited Node := ⟨{ rule := .document, groups := [], span := .nowhere, recovered := false }⟩

namespace Element

/-- The node of an element that is one. -/
def node? {N : Type} : Element N → Option N
  | .node n => some n
  | .token _ => none

/-- The token of an element that is one. -/
def token? {N : Type} : Element N → Option Token
  | .node _ => none
  | .token t => some t

/-- The bytes that an element covers. -/
def bytes : Element Node → ByteSpan
  | .node n => n.span
  | .token t => t.bytes

end Element

/-- A part of a reading with its label. -/
abbrev Part := Label × Element Node

namespace Node

/-! ## Making nodes -/

/-- Files labelled things under their labels. -/
def group {α : Type} (parts : List (Label × α)) : List (Label × List α) :=
  (distinct (parts.map (·.1))).map fun label =>
    (label, parts.filterMap fun (l, a) => if l = label then some a else none)

/-- The node of a reading. -/
def ofParts (rule : Rule) (parts : List Part) (recovered : Bool) : Node :=
  { rule, recovered
    groups := group parts
    span := ByteSpan.cover (parts.map fun (_, e) => e.bytes) }

/-! ## Looking into nodes -/

/-- What is filed under a label. -/
def elements (n : Node) (label : Label) : List (Element Node) :=
  match n.groups.find? fun (l, _) => l == label with
  | some (_, es) => es
  | none => []

/-- Whether the label has been used. -/
def has (n : Node) (label : Label) : Bool := n.groups.any fun (l, _) => l == label

/-- The nested readings of a rule. -/
def nodes (n : Node) (r : Rule) : List Node := (n.elements (.rule r)).filterMap Element.node?

/-- The first nested reading of a rule. -/
def node? (n : Node) (r : Rule) : Option Node := (n.nodes r).head?

/-- The tokens that met a demand. -/
def tokens (n : Node) (demand : TokenKind) : List Token :=
  (n.elements (.token demand)).filterMap Element.token?

/-- The first token that met a demand. -/
def token? (n : Node) (demand : TokenKind) : Option Token := (n.tokens demand).head?

/-- All nested readings, label by label. -/
def children (n : Node) : List Node :=
  n.groups.flatMap fun (_, es) => es.filterMap Element.node?

/-- All tokens that are filed under demands, label by label. -/
def labelledTokens (n : Node) : List Token :=
  n.groups.flatMap fun (label, es) =>
    match label with
    | .token _ => es.filterMap Element.token?
    | .rule _ => []

/-- The stretch of a source that the node covers. -/
def sourceText (n : Node) (source : String) : Option String := n.span.slice source

/-! ## Nested readings are smaller

  This is what lets a function walk down a tree through the children of its nodes. -/

/-- A node is larger than each node that it holds. -/
theorem sizeOf_lt_of_mem_groups {n c : Node} {label : Label} {es : List (Element Node)}
    (hg : (label, es) ∈ n.groups) (hc : Element.node c ∈ es) : sizeOf c < sizeOf n := by
  cases n with
  | mk rule groups span recovered =>
    have h1 := List.sizeOf_lt_of_mem hg
    have h2 := List.sizeOf_lt_of_mem hc
    simp only [Node.mk.sizeOf_spec, Prod.mk.sizeOf_spec, Element.node.sizeOf_spec] at *
    omega

/-- The nodes among some elements are those that are elements. -/
theorem mem_filterMap_node?_iff {c : Node} {es : List (Element Node)} :
    c ∈ es.filterMap Element.node? ↔ Element.node c ∈ es := by
  simp only [List.mem_filterMap]
  constructor
  · rintro ⟨e, he, hc⟩
    cases e with
    | node m => cases hc; exact he
    | token t => cases hc
  · exact fun h => ⟨_, h, rfl⟩

theorem sizeOf_lt_of_mem_children {n c : Node} (h : c ∈ n.children) : sizeOf c < sizeOf n := by
  simp only [children, List.mem_flatMap] at h
  obtain ⟨⟨label, es⟩, hg, hc⟩ := h
  exact sizeOf_lt_of_mem_groups hg (mem_filterMap_node?_iff.mp hc)

/-- A reading of a rule is a child. -/
theorem mem_children_of_mem_nodes {n c : Node} {r : Rule} (h : c ∈ n.nodes r) :
    c ∈ n.children := by
  simp only [nodes, mem_filterMap_node?_iff] at h
  unfold elements at h
  split at h
  · rename_i l es hfind
    simp only [children, List.mem_flatMap]
    exact ⟨_, List.mem_of_find?_eq_some hfind, mem_filterMap_node?_iff.mpr h⟩
  · simp at h

/-! ## Printing -/

/-- Two blanks for each level. -/
def indent (depth : Nat) : String := String.ofList (List.replicate (2 * depth) ' ')

/-- The line of a token in a printed tree. -/
def tokenLine (depth : Nat) (label : Label) (t : Token) : String :=
  s!"{indent (depth + 1)}{label.text} '{t.text}'" ++ (if t.inserted then " (inserted)" else "")

/-- The line of a node in a printed tree. -/
def headLine (depth : Nat) (n : Node) : String :=
  s!"{indent depth}{n.rule}"
    ++ (if n.span.isPlace then s!" @{n.span.start}..{n.span.stop}" else "")
    ++ (if n.recovered then " (recovered)" else "")

mutual

/-- The lines of a printed tree: a node, and under it what it holds, label by label. -/
def lines (depth : Nat) : Node → List String
  | n@⟨_, groups, _, _⟩ => n.headLine depth :: linesOfGroups depth groups

/-- The lines of the groups of a node. -/
def linesOfGroups (depth : Nat) : List (Label × List (Element Node)) → List String
  | [] => []
  | (label, es) :: rest => linesOfElements depth label es ++ linesOfGroups depth rest

/-- The lines of the elements under one label. -/
def linesOfElements (depth : Nat) (label : Label) : List (Element Node) → List String
  | [] => []
  | .node n :: rest => n.lines (depth + 1) ++ linesOfElements depth label rest
  | .token t :: rest => tokenLine depth label t :: linesOfElements depth label rest

end

/-- A tree as text, each line ended. -/
def render (n : Node) : String := String.join ((n.lines 0).map (· ++ "\n"))

end Node

end GraphQL
