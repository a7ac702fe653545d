/-
  What a tree holds.

  A node files its parts under labels and so loses the order in which they were read; nothing else
  is lost.  `elements_ofParts` says what is filed under one label, `leaves_ofParts` that the tokens
  below a node are those of its parts, each as often as there.

  `Node.leaves` lists all tokens of a tree, inserted ones among them, and `Node.Within` is the
  relation between a tree and the nodes in it.
-/
import GraphQL.Tree
import Mathlib.Data.List.Basic

namespace GraphQL

/-! ## Tokens and nodes of a tree -/

namespace Node

mutual

/-- All tokens of a tree. -/
def leaves : Node → List Token
  | ⟨_, groups, _, _⟩ => leavesOfGroups groups

/-- The tokens of the groups of a node. -/
def leavesOfGroups : List (Label × List (Element Node)) → List Token
  | [] => []
  | (_, es) :: rest => leavesOfElements es ++ leavesOfGroups rest

/-- The tokens of the elements under one label. -/
def leavesOfElements : List (Element Node) → List Token
  | [] => []
  | .node n :: rest => n.leaves ++ leavesOfElements rest
  | .token t :: rest => t :: leavesOfElements rest

end

/-- Whether a node is a tree itself or one of the nodes below its root. -/
inductive Within : Node → Node → Prop where
  | root (n : Node) : Within n n
  | step {m c n : Node} (child : c ∈ n.children) (within : Within m c) : Within m n

/-- What is reached through nested readings is within the tree. -/
theorem within_of_path {tree m : Node} (path : List Rule)
    (h : path.foldlM Node.node? tree = some m) : m.Within tree := by
  induction path generalizing tree with
  | nil =>
    cases h
    exact .root _
  | cons r path ih =>
    obtain ⟨c, hc, h⟩ := Option.bind_eq_some_iff.mp (List.foldlM_cons.symm.trans h)
    exact .step (mem_children_of_mem_nodes (List.mem_of_mem_head? hc)) (ih h)

end Node

/-- The tokens of an element. -/
def Element.leaves : Element Node → List Token
  | .node n => n.leaves
  | .token t => [t]

/-- The tokens of some parts, in their order. -/
def leavesOfParts (parts : List Part) : List Token := parts.flatMap fun (_, e) => e.leaves

@[simp] theorem leavesOfParts_nil : leavesOfParts [] = [] := rfl

@[simp] theorem leavesOfParts_append (ps qs : List Part) :
    leavesOfParts (ps ++ qs) = leavesOfParts ps ++ leavesOfParts qs := List.flatMap_append

@[simp] theorem leavesOfParts_token (demand : Label) (t : Token) :
    leavesOfParts [(demand, .token t)] = [t] := rfl

@[simp] theorem leavesOfParts_node (label : Label) (n : Node) :
    leavesOfParts [(label, .node n)] = n.leaves := List.append_nil _

namespace Node

theorem leavesOfElements_eq (es : List (Element Node)) :
    leavesOfElements es = es.flatMap Element.leaves := by
  induction es with
  | nil => rfl
  | cons e rest ih => cases e <;> simp [leavesOfElements, Element.leaves, ih]

theorem leavesOfGroups_eq (groups : List (Label × List (Element Node))) :
    leavesOfGroups groups = (groups.flatMap (·.2)).flatMap Element.leaves := by
  induction groups with
  | nil => rfl
  | cons group rest ih =>
    simp [leavesOfGroups, leavesOfElements_eq, ih]

/-! ## Grouping loses only the order -/

/-- The things under one label. -/
theorem filterMap_label {α : Type} (label : Label) (parts : List (Label × α)) :
    (parts.filterMap fun (l, a) => if l = label then some a else none)
      = (parts.filter (·.1 = label)).map (·.2) := by
  rw [← List.filterMap_eq_map, List.filterMap_filter]
  refine List.filterMap_congr fun p _ => ?_
  by_cases h : p.1 = label <;> simp [h]

/-- Sorting labelled things by labels keeps them all, if the labels are listed once and none is
    missing.  Induction on the labels: the things under the first are split off. -/
theorem perm_of_labels {α : Type} (labels : List Label) (once : labels.Nodup)
    (parts : List (Label × α)) (known : ∀ p ∈ parts, p.1 ∈ labels) :
    (labels.flatMap fun label => parts.filter (·.1 = label)).Perm parts := by
  induction labels generalizing parts with
  | nil =>
    have none : parts = [] := List.eq_nil_iff_forall_not_mem.mpr fun p hp => nomatch known p hp
    simp [none]
  | cons label labels ih =>
    obtain ⟨fresh, once⟩ := List.nodup_cons.mp once
    -- induction on the parts with another label, since each label is there once
    have others := ih once (parts.filter fun p => !decide (p.1 = label)) fun p hp => by
      obtain ⟨hp, hne⟩ := List.mem_filter.mp hp
      exact (List.mem_cons.mp (known p hp)).resolve_left (by simpa using hne)
    -- no part with one of the other labels is taken out
    have same : ∀ l ∈ labels,
        (parts.filter fun p => !decide (p.1 = label)).filter (·.1 = l)
          = parts.filter (·.1 = l) := by
      intro l hl
      rw [List.filter_filter]
      refine List.filter_congr fun p _ => ?_
      have : l ≠ label := fun h => fresh (h ▸ hl)
      by_cases h : p.1 = l <;> simp [h, this]
    rw [List.flatMap_congr same] at others
    exact (others.append_left _).trans (List.filter_append_perm _ parts)

/-- Grouped parts are the parts in another order. -/
theorem perm_group {α : Type} (parts : List (Label × α)) :
    ((group parts).flatMap (·.2)).Perm (parts.map (·.2)) := by
  have perm := perm_of_labels _ (nodup_distinct _) parts fun p hp =>
    mem_distinct.mpr (List.mem_map_of_mem hp)
  have h := perm.map (·.2)
  rw [List.map_flatMap] at h
  simpa only [group, List.flatMap_map, filterMap_label] using h

/-- The tokens below a node are those of its parts. -/
theorem leaves_ofParts (rule : Rule) (parts : List Part) (recovered : Bool) :
    (ofParts rule parts recovered).leaves.Perm (leavesOfParts parts) := by
  show (leavesOfGroups (group parts)).Perm _
  rw [leavesOfGroups_eq]
  have h := (perm_group parts).flatMap_right Element.leaves
  rwa [List.flatMap_map] at h

/-! ## What is filed under a label -/

/-- Under a label a node holds the parts with that label, in their order. -/
theorem elements_ofParts (rule : Rule) (parts : List Part) (recovered : Bool) (label : Label) :
    (ofParts rule parts recovered).elements label
      = parts.filterMap fun (l, e) => if l = label then some e else none := by
  unfold elements ofParts group
  simp only [List.find?_map, Function.comp_def]
  cases h : (distinct (parts.map (·.1))).find? fun l => l == label with
  | some l =>
    -- there is a group with the label, which holds its elements
    have : l = label := by simpa using List.find?_some h
    simp [this]
  | none =>
    -- there is no group with the label, and so no part with it
    have absent : ∀ p ∈ parts, p.1 ≠ label := by
      intro p hp hl
      have hmem : label ∈ distinct (parts.map (·.1)) :=
        mem_distinct.mpr (List.mem_map.mpr ⟨p, hp, hl⟩)
      exact absurd (List.find?_eq_none.mp h label hmem) (by simp)
    simp only [Option.map_none]
    refine (List.filterMap_eq_nil_iff.mpr fun p hp => ?_).symm
    simp [absent p hp]

/-- An element is filed under a label exactly if it is a part with that label. -/
theorem mem_elements_ofParts {rule : Rule} {parts : List Part} {recovered : Bool} {label : Label}
    {e : Element Node} :
    e ∈ (ofParts rule parts recovered).elements label ↔ (label, e) ∈ parts := by
  rw [elements_ofParts, List.mem_filterMap]
  constructor
  · rintro ⟨⟨l, e'⟩, hmem, h⟩
    by_cases hl : l = label
    · simp only [hl, if_true, Option.some.injEq] at h
      exact hl ▸ h ▸ hmem
    · simp [hl] at h
  · intro h
    exact ⟨(label, e), h, by simp⟩

/-- A label is used exactly if some part has it. -/
theorem has_ofParts {rule : Rule} {parts : List Part} {recovered : Bool} {label : Label} :
    (ofParts rule parts recovered).has label = true ↔ label ∈ parts.map (·.1) := by
  simp [has, ofParts, group, mem_distinct]

/-- The children of a node are the nodes among its parts. -/
theorem mem_children_ofParts {rule : Rule} {parts : List Part} {recovered : Bool} {c : Node} :
    c ∈ (ofParts rule parts recovered).children ↔ ∃ label, (label, .node c) ∈ parts := by
  have perm := (perm_group parts).mem_iff (a := Element.node c)
  simp only [List.mem_flatMap, List.mem_map, Prod.exists, exists_eq_right] at perm
  simp only [children, List.mem_flatMap, mem_filterMap_node?_iff]
  constructor
  · rintro ⟨g, hg, hc⟩
    exact perm.mp ⟨_, _, hg, hc⟩
  · intro h
    obtain ⟨l, es, hg, hc⟩ := perm.mpr h
    exact ⟨(l, es), hg, hc⟩

/-- The tokens under a demand are tokens under demands. -/
theorem mem_labelledTokens_of_mem_tokens {n : Node} {demand : TokenKind} {t : Token}
    (h : t ∈ n.tokens demand) : t ∈ n.labelledTokens := by
  unfold tokens elements at h
  split at h
  · rename_i label es found
    have used : label = .token demand := by simpa using List.find?_some found
    subst used
    exact List.mem_flatMap.mpr ⟨_, List.mem_of_find?_eq_some found, h⟩
  · cases h

end Node

end GraphQL
