/-
  Nodes conform to their productions.

  A reading may put tokens in, leave tokens out and give up rules; its nodes keep a shape all the
  same.  What stands under a label fits it, and only labels of the production are used.  A node that
  was not given up has been read to the end of its production, so its labels are in the order that
  the production generates (`Generates`).  `Node.Conforms` says this about a node and all nodes below
  it.  It is what `Node.ReadUnder` says with the flags left aside, so every node of a parse conforms,
  whatever the tokens are.

  What every row of labels of a production must contain can be computed (`Production.surely`).  That
  is how one knows that a node has a child without looking at the tokens.
-/
import GraphQL.Proofs.Slots

namespace GraphQL

/-! ## Rows of labels -/

/-- The rows of labels that a production generates under a flag. -/
inductive Generates (constant : Bool) : Production → List Label → Prop where
  | token {kind} : Generates constant (.token kind) [.token kind]
  | call {rule arg} : Generates constant (.call rule arg) [.rule rule]
  | nil : Generates constant (.sequence []) []
  | cons {p items labels more} (first : Generates constant p labels)
      (others : Generates constant (.sequence items) more) :
      Generates constant (.sequence (p :: items)) (labels ++ more)
  | skip {body} : Generates constant (.optional body) []
  | enter {body labels} (inside : Generates constant body labels) :
      Generates constant (.optional body) labels
  | done {body} : Generates constant (.many body) []
  | again {body labels more} (first : Generates constant body labels)
      (others : Generates constant (.many body) more) :
      Generates constant (.many body) (labels ++ more)
  | once {body labels more} (first : Generates constant body labels)
      (others : Generates constant (.many body) more) :
      Generates constant (.atLeastOne body) (labels ++ more)
  | branch {gate p alternatives labels} (chosen : (gate, p) ∈ alternatives)
      (opens : gate.allows constant = true) (inside : Generates constant p labels) :
      Generates constant (.choice alternatives) labels

namespace Production

/-- The labels that a production can use. -/
def labels (p : Production) : List Label := p.calls.map .rule ++ p.demands.map .token

/-- An alternative calls no more than the choice does. -/
theorem calls_subset_of_mem {gate : Gate} {p : Production}
    {alternatives : List (Gate × Production)} (h : (gate, p) ∈ alternatives) :
    p.calls ⊆ callsOfAlternatives alternatives := by
  induction alternatives with
  | nil => cases h
  | cons alternative rest ih =>
    rcases List.mem_cons.mp h with rfl | h
    · exact List.subset_append_left ..
    · exact List.Subset.trans (ih h) (List.subset_append_right ..)

/-- A production that calls and demands no more has no other labels. -/
theorem labels_subset {p q : Production} (calls : p.calls ⊆ q.calls)
    (demands : p.demands ⊆ q.demands) : p.labels ⊆ q.labels := by
  intro label h
  rcases List.mem_append.mp h with h | h
  · exact List.mem_append_left _ (List.map_subset _ calls h)
  · exact List.mem_append_right _ (List.map_subset _ demands h)

theorem labels_head {p : Production} {items : List Production} :
    p.labels ⊆ (Production.sequence (p :: items)).labels :=
  labels_subset (List.subset_append_left ..) (List.subset_append_left ..)

theorem labels_tail {p : Production} {items : List Production} :
    (Production.sequence items).labels ⊆ (Production.sequence (p :: items)).labels :=
  labels_subset (List.subset_append_right ..) (List.subset_append_right ..)

theorem labels_branch {gate : Gate} {p : Production} {alternatives : List (Gate × Production)}
    (h : (gate, p) ∈ alternatives) : p.labels ⊆ (Production.choice alternatives).labels :=
  labels_subset (calls_subset_of_mem h) (demands_subset_of_mem h)

mutual

/-- Whether every row of labels has one of those wanted. -/
def surely (wanted : Label → Bool) : Production → Bool
  | .token kind => wanted (.token kind)
  | .call rule _ => wanted (.rule rule)
  | .sequence items => surelyInSome wanted items
  | .optional _ => false
  | .many _ => false
  | .atLeastOne body => body.surely wanted
  | .choice alternatives => surelyInEach wanted alternatives

/-- The same, in one of productions in a row. -/
def surelyInSome (wanted : Label → Bool) : List Production → Bool
  | [] => false
  | p :: rest => p.surely wanted || surelyInSome wanted rest

/-- The same, in each of some alternatives. -/
def surelyInEach (wanted : Label → Bool) : List (Gate × Production) → Bool
  | [] => true
  | (_, p) :: rest => p.surely wanted && surelyInEach wanted rest

end

/-- What a choice surely has each of its alternatives surely has. -/
theorem surely_of_mem {wanted : Label → Bool} {gate : Gate} {p : Production}
    {alternatives : List (Gate × Production)} (h : (gate, p) ∈ alternatives)
    (sure : surelyInEach wanted alternatives = true) : p.surely wanted = true := by
  induction alternatives with
  | nil => cases h
  | cons alternative rest ih =>
    obtain ⟨first, others⟩ := Bool.and_eq_true_iff.mp sure
    rcases List.mem_cons.mp h with rfl | h
    · exact first
    · exact ih h others

end Production

/-- What is surely in every row is in each. -/
theorem Generates.exists_wanted {constant : Bool} {p : Production} {labels : List Label}
    {wanted : Label → Bool} (h : Generates constant p labels) (sure : p.surely wanted = true) :
    ∃ label ∈ labels, wanted label = true := by
  -- what may be left out is not sure, so it is found in a part that is there
  induction h with
  | token => exact ⟨_, List.mem_singleton_self _, sure⟩
  | call => exact ⟨_, List.mem_singleton_self _, sure⟩
  | nil => cases sure
  | skip => cases sure
  | enter => cases sure
  | done => cases sure
  | again => cases sure
  | cons _ _ ih₁ ih₂ =>
    rcases Bool.or_eq_true_iff.mp sure with sure | sure
    · obtain ⟨label, hl, hw⟩ := ih₁ sure
      exact ⟨label, List.mem_append_left _ hl, hw⟩
    · obtain ⟨label, hl, hw⟩ := ih₂ sure
      exact ⟨label, List.mem_append_right _ hl, hw⟩
  | once _ _ ih₁ =>
    obtain ⟨label, hl, hw⟩ := ih₁ sure
    exact ⟨label, List.mem_append_left _ hl, hw⟩
  | branch chosen _ _ ih => exact ih (Production.surely_of_mem chosen sure)

/-! ## Conforming nodes -/

/-- A node and all nodes below it conform to their productions. -/
inductive Node.Conforms (g : Productions) : Node → Prop where
  | ofParts (rule : Rule) (parts : List Part) (recovered : Bool)
      (fits : ∀ p ∈ parts, p.1.Admits p.2)
      (known : parts.map (·.1) ⊆ (g.get rule).labels)
      (whole : recovered = false →
        ∃ constant, Generates constant (g.get rule) (parts.map (·.1)))
      (below : ∀ label n, (label, .node n) ∈ parts → n.Conforms g) :
      Node.Conforms g (.ofParts rule parts recovered)

/-! ### Nodes that were read conform -/

/-- The labels of a row of slots are a row of labels. -/
theorem Rows.generates {constant : Bool} {p : Production} {row : List Slot}
    (h : Rows constant p row) : Generates constant p (row.map Slot.label) := by
  -- a row of slots gives a row of labels, its flags forgotten
  induction h with
  | token => exact .token
  | call => exact .call
  | nil => exact .nil
  | skip => exact .skip
  | done => exact .done
  | enter _ ih => exact .enter ih
  | branch chosen opens _ ih => exact .branch chosen opens ih
  | cons _ _ ih₁ ih₂ =>
    rw [List.map_append]
    exact .cons ih₁ ih₂
  | again _ _ ih₁ ih₂ =>
    rw [List.map_append]
    exact .again ih₁ ih₂
  | once _ _ ih₁ ih₂ =>
    rw [List.map_append]
    exact .once ih₁ ih₂

namespace Production

mutual

/-- The labels of slots are labels of their production. -/
theorem label_mem_labels {constant : Bool} {slot : Slot} :
    (p : Production) → slot ∈ p.slots constant → slot.label ∈ p.labels
  | .token kind, h => by
    obtain rfl := List.mem_singleton.mp h
    exact List.mem_singleton_self _
  | .call rule arg, h => by
    obtain rfl := List.mem_singleton.mp h
    exact List.mem_singleton_self _
  | .sequence items, h => label_mem_labels_of_all items h
  | .optional body, h => label_mem_labels body h
  | .many body, h => label_mem_labels body h
  | .atLeastOne body, h => label_mem_labels body h
  | .choice alternatives, h => label_mem_labels_of_alternatives alternatives h

/-- The same, for productions in a row. -/
theorem label_mem_labels_of_all {constant : Bool} {slot : Slot} :
    (items : List Production) → slot ∈ slotsOfAll constant items →
      slot.label ∈ (Production.sequence items).labels
  | [], h => nomatch h
  | p :: rest, h => by
    rcases List.mem_append.mp h with h | h
    · exact labels_head (label_mem_labels p h)
    · exact labels_tail (label_mem_labels_of_all rest h)

/-- The same, for the alternatives of a choice. -/
theorem label_mem_labels_of_alternatives {constant : Bool} {slot : Slot} :
    (alternatives : List (Gate × Production)) → slot ∈ slotsOfAlternatives constant alternatives →
      slot.label ∈ (Production.choice alternatives).labels
  | [], h => nomatch h
  | (gate, p) :: rest, h => by
    rcases List.mem_append.mp h with h | h
    · split at h
      · exact labels_branch List.mem_cons_self (label_mem_labels p h)
      · cases h
    · have inRest := label_mem_labels_of_alternatives rest h
      exact labels_subset (List.subset_append_right ..) (List.subset_append_right ..) inRest

end

end Production

/-- What was read under a flag conforms. -/
theorem Node.ReadUnder.conforms {g : Productions} {constant : Bool} {n : Node}
    (h : n.ReadUnder g constant) : n.Conforms g := by
  induction h with
  | ofParts constant rule fillings recovered fits opened whole below ih =>
    have parts : ∀ {label e}, (label, e) ∈ filings fillings →
        ∃ slot, (slot, e) ∈ fillings ∧ slot.label = label := by
      intro label e hp
      obtain ⟨⟨slot, _⟩, hmem, heq⟩ := List.mem_map.mp hp
      cases heq
      exact ⟨slot, hmem, rfl⟩
    refine .ofParts rule (filings fillings) recovered ?_ ?_ ?_ ?_
    · -- what is filed under a label is admitted by it
      rintro ⟨label, e⟩ hp
      obtain ⟨slot, hmem, rfl⟩ := parts hp
      exact fits _ hmem
    · -- the label is one of the production
      rw [labels_filings]
      intro label hl
      obtain ⟨slot, hslot, rfl⟩ := List.mem_map.mp hl
      exact Production.label_mem_labels _ (opened hslot)
    · -- if the node was not given up, its labels are a row of the production
      intro kept
      rw [labels_filings]
      exact ⟨constant, (whole kept).generates⟩
    · -- and each nested node conforms as well
      intro label n hp
      obtain ⟨slot, hmem, -⟩ := parts hp
      cases slot with
      | token kind => exact (fits _ hmem).elim
      | call r flag => exact ih r flag n hmem

/-! ## Looking into conforming nodes -/

namespace Node.Conforms

variable {g : Productions} {n c : Node}

/-- Children conform, and their rules are labels of the production. -/
theorem child (h : n.Conforms g) (hc : c ∈ n.children) :
    c.Conforms g ∧ .rule c.rule ∈ (g.get n.rule).labels := by
  obtain ⟨rule, parts, recovered, fits, known, -, below⟩ := h
  obtain ⟨label, hp⟩ := mem_children_ofParts.mp hc
  refine ⟨below label c hp, ?_⟩
  have admits := fits _ hp
  cases label with
  | token demand => exact admits.elim
  | rule r =>
    have hr : c.rule = r := admits
    exact known (hr ▸ List.mem_map_of_mem hp)

/-- What is filed under a rule are readings of it. -/
theorem rule_of_mem_nodes (h : n.Conforms g) {r : Rule} (hc : c ∈ n.nodes r) : c.rule = r := by
  obtain ⟨rule, parts, recovered, fits, -, -, -⟩ := h
  have hp := mem_elements_ofParts.mp (mem_filterMap_node?_iff.mp hc)
  exact fits _ hp

/-- A node that was not given up has what every row of its production has. -/
theorem has_of_surely (h : n.Conforms g) (whole : n.recovered = false) {wanted : Label → Bool}
    (sure : (g.get n.rule).surely wanted = true) :
    ∃ label, n.has label = true ∧ wanted label = true := by
  obtain ⟨rule, parts, recovered, -, -, generates, -⟩ := h
  obtain ⟨constant, generates⟩ := generates whole
  obtain ⟨label, hl, hw⟩ := generates.exists_wanted sure
  exact ⟨label, has_ofParts.mpr hl, hw⟩

/-- Under a rule that is used as a label stands a node. -/
theorem exists_node (h : n.Conforms g) {r : Rule} (has : n.has (.rule r) = true) :
    ∃ c, c ∈ n.nodes r := by
  obtain ⟨rule, parts, recovered, fits, -, -, -⟩ := h
  obtain ⟨⟨label, e⟩, hp, rfl⟩ := List.mem_map.mp (has_ofParts.mp has)
  cases e with
  | token t => exact (fits _ hp).elim
  | node m => exact ⟨m, mem_filterMap_node?_iff.mpr (mem_elements_ofParts.mpr hp)⟩

/-- Under a demand that is used as a label stands a token. -/
theorem exists_token (h : n.Conforms g) {demand : TokenKind}
    (has : n.has (.token demand) = true) : ∃ t, n.token? demand = some t := by
  obtain ⟨rule, parts, recovered, fits, -, -, -⟩ := h
  obtain ⟨⟨label, e⟩, hp, rfl⟩ := List.mem_map.mp (has_ofParts.mp has)
  cases e with
  | node m => exact (fits _ hp).elim
  | token t =>
    have filed : t ∈ (Node.ofParts rule parts recovered).tokens demand :=
      List.mem_filterMap.mpr ⟨_, mem_elements_ofParts.mpr hp, rfl⟩
    exact Option.isSome_iff_exists.mp (List.isSome_head?.mpr (List.ne_nil_of_mem filed))

end Node.Conforms

/-! ## Every tree conforms -/

/-- A parse always gives a tree, and the tree conforms. -/
theorem exists_conforming_tree {d : Draft} {g : Grammar} (finished : d.finish = .ok g)
    (entry : Rule) (tokens : List Token) :
    ∃ tree : Node, (g.parse entry tokens).tree = some tree ∧ tree.rule = entry ∧
      tree.Conforms g.productions := by
  obtain ⟨tree, htree, hrule, read⟩ := exists_tree_readUnder finished entry tokens
  exact ⟨tree, htree, hrule, read.conforms⟩

end GraphQL
