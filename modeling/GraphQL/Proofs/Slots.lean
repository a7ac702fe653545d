/-
  Under which flag each node was read.

  The flag "only constants here" is not part of a tree: it is handed from rule to rule while tokens
  are read, and decides which alternatives are open.  A `Slot` is one place in a reading, a token
  under a demand or a rule together with the flag that it is read under, and `Rows` are the rows of
  slots that a production lays out under a flag.

  `Node.ReadUnder g constant n` says that `n` can have been read under a flag: its parts fill slots
  that are open under that flag, a whole row of them unless the node was given up, and each nested
  reading was made under the flag of the slot that it fills.  Every tree of every parse is read so,
  from its entry rule down (`Run.fills`, `every_node_conforms`).
-/
import GraphQL.Proofs.Demands
import GraphQL.Proofs.Run
import GraphQL.Proofs.StandardGrammar
import GraphQL.Proofs.TreeContents

namespace GraphQL

/-! ## Slots -/

/-- One place in a reading: a token under a demand, or a rule that is read under a flag. -/
inductive Slot where
  | token (kind : TokenKind)
  | call (rule : Rule) (constant : Bool)
deriving DecidableEq, Repr

/-- What stands in a slot is filed under this label. -/
def Slot.label : Slot → Label
  | .token kind => .token kind
  | .call rule _ => .rule rule

/-- The rows of slots that a production lays out under a flag: each optional part may be there or
    not, each repetition may go round any number of times, and any open alternative may be taken. -/
inductive Rows (constant : Bool) : Production → List Slot → Prop where
  | token {kind} : Rows constant (.token kind) [.token kind]
  | call {rule arg} : Rows constant (.call rule arg) [.call rule (arg.resolve constant)]
  | nil : Rows constant (.sequence []) []
  | cons {p items row more} (first : Rows constant p row)
      (others : Rows constant (.sequence items) more) :
      Rows constant (.sequence (p :: items)) (row ++ more)
  | skip {body} : Rows constant (.optional body) []
  | enter {body row} (inside : Rows constant body row) : Rows constant (.optional body) row
  | done {body} : Rows constant (.many body) []
  | again {body row more} (first : Rows constant body row)
      (others : Rows constant (.many body) more) : Rows constant (.many body) (row ++ more)
  | once {body row more} (first : Rows constant body row)
      (others : Rows constant (.many body) more) : Rows constant (.atLeastOne body) (row ++ more)
  | branch {gate p alternatives row} (chosen : (gate, p) ∈ alternatives)
      (opens : gate.allows constant = true) (inside : Rows constant p row) :
      Rows constant (.choice alternatives) row

namespace Production

mutual

/-- The slots that stand in some row of a production under a flag. -/
def slots (constant : Bool) : Production → List Slot
  | .token kind => [.token kind]
  | .call rule arg => [.call rule (arg.resolve constant)]
  | .sequence items => slotsOfAll constant items
  | .optional body => body.slots constant
  | .many body => body.slots constant
  | .atLeastOne body => body.slots constant
  | .choice alternatives => slotsOfAlternatives constant alternatives

/-- The slots of productions in a row. -/
def slotsOfAll (constant : Bool) : List Production → List Slot
  | [] => []
  | p :: rest => p.slots constant ++ slotsOfAll constant rest

/-- The slots of the alternatives that are open. -/
def slotsOfAlternatives (constant : Bool) : List (Gate × Production) → List Slot
  | [] => []
  | (gate, p) :: rest =>
    (if gate.allows constant then p.slots constant else []) ++ slotsOfAlternatives constant rest

end

/-- An alternative with an open gate has no slots but those of the choice. -/
theorem slots_subset_of_mem {constant : Bool} {gate : Gate} {p : Production}
    {alternatives : List (Gate × Production)} (chosen : (gate, p) ∈ alternatives)
    (opens : gate.allows constant = true) :
    p.slots constant ⊆ slotsOfAlternatives constant alternatives := by
  induction alternatives with
  | nil => cases chosen
  | cons alternative rest ih =>
    rcases List.mem_cons.mp chosen with rfl | chosen
    · rw [slotsOfAlternatives, if_pos opens]
      exact List.subset_append_left ..
    · exact List.Subset.trans (ih chosen) (List.subset_append_right ..)

end Production

/-! ## Nodes -/

/-- Whether an element may stand under a label: a node under its rule, and a token under a demand
    that it meets or for which it was put in. -/
def Label.Admits : Label → Element Node → Prop
  | .rule r, .node n => n.rule = r
  | .token demand, .token t => t.meets demand = true ∨ (t.inserted = true ∧ t.kind = demand)
  | .rule _, .token _ => False
  | .token _, .node _ => False

/-- What stands in a slot. -/
abbrev Filling := Slot × Element Node

/-- Fillings as parts of a node, filed under their labels. -/
def filings (fillings : List Filling) : List Part :=
  fillings.map fun (slot, e) => (slot.label, e)

@[simp] theorem filings_append (xs ys : List Filling) :
    filings (xs ++ ys) = filings xs ++ filings ys := List.map_append

/-- The labels of fillings are those of their slots. -/
theorem labels_filings (fillings : List Filling) :
    (filings fillings).map (·.1) = (fillings.map (·.1)).map Slot.label := by
  simp [filings]

/-- A node, with all nodes below it, that can have been read under a flag. -/
inductive Node.ReadUnder (g : Productions) : (constant : Bool) → Node → Prop where
  | ofParts (constant : Bool) (rule : Rule) (fillings : List Filling) (recovered : Bool)
      (fits : ∀ p ∈ fillings, p.1.label.Admits p.2)
      (opened : fillings.map (·.1) ⊆ (g.get rule).slots constant)
      (whole : recovered = false → Rows constant (g.get rule) (fillings.map (·.1)))
      (below : ∀ r flag n, (.call r flag, .node n) ∈ fillings → n.ReadUnder g flag) :
      Node.ReadUnder g constant (.ofParts rule (filings fillings) recovered)

namespace Node.ReadUnder

variable {g : Productions} {constant : Bool} {n m : Node}

/-- Each child stands in a slot of its rule, and was read under the flag of that slot. -/
theorem exists_slot (h : n.ReadUnder g constant) (hm : m ∈ n.children) :
    ∃ flag, .call m.rule flag ∈ (g.get n.rule).slots constant ∧ m.ReadUnder g flag := by
  obtain ⟨_, rule, fillings, recovered, fits, opened, -, below⟩ := h
  obtain ⟨label, hp⟩ := mem_children_ofParts.mp hm
  obtain ⟨⟨slot, e⟩, hmem, heq⟩ := List.mem_map.mp hp
  cases heq
  cases slot with
  | token kind => exact (fits _ hmem).elim
  | call r flag =>
    obtain rfl : m.rule = r := fits _ hmem
    exact ⟨flag, opened (List.mem_map_of_mem hmem), below m.rule flag m hmem⟩

/-- Each child was read under some flag. -/
theorem child (h : n.ReadUnder g constant) (hm : m ∈ n.children) :
    ∃ flag, m.ReadUnder g flag := by
  obtain ⟨flag, -, read⟩ := h.exists_slot hm
  exact ⟨flag, read⟩

/-- So was each node below. -/
theorem within (h : n.ReadUnder g constant) (hm : m.Within n) : ∃ flag, m.ReadUnder g flag := by
  induction hm generalizing constant with
  | root => exact ⟨constant, h⟩
  | step child _ ih =>
    obtain ⟨flag, h⟩ := h.child child
    exact ih h

/-- A node that was not given up has the groups of a row: each label of the row once, in the order
    in which the row first has them, and under it as many elements as the row has slots. -/
theorem exists_row (h : n.ReadUnder g constant) (whole : n.recovered = false) :
    ∃ row, Rows constant (g.get n.rule) row ∧
      n.groups.map (·.1) = distinct (row.map Slot.label) ∧
      ∀ label es, (label, es) ∈ n.groups → es.length = (row.map Slot.label).count label := by
  obtain ⟨_, rule, fillings, recovered, -, -, rows, -⟩ := h
  refine ⟨_, rows whole, ?_, ?_⟩
  · rw [← labels_filings]
    simp [Node.ofParts, group, Function.comp_def]
  · intro label es hgroup
    obtain ⟨l, -, heq⟩ := List.mem_map.mp hgroup
    cases heq
    rw [← labels_filings, filterMap_label, List.length_map, List.count_eq_countP,
      List.countP_map, List.countP_eq_length_filter]
    congr 2

/-- Nothing is filed under a label where it does not belong, and no label is without elements. -/
theorem admits (h : n.ReadUnder g constant) {label : Label} {es : List (Element Node)}
    (hgroup : (label, es) ∈ n.groups) : es ≠ [] ∧ ∀ e ∈ es, label.Admits e := by
  obtain ⟨_, rule, fillings, recovered, fits, -, -, -⟩ := h
  obtain ⟨l, hl, heq⟩ := List.mem_map.mp hgroup
  cases heq
  rw [filterMap_label]
  constructor
  · obtain ⟨p, hp, rfl⟩ := List.mem_map.mp (mem_distinct.mp hl)
    exact List.ne_nil_of_mem (List.mem_map_of_mem (List.mem_filter.mpr ⟨hp, by simp⟩))
  · intro e he
    obtain ⟨p, hp, rfl⟩ := List.mem_map.mp he
    obtain ⟨hp, hlabel⟩ := List.mem_filter.mp hp
    obtain ⟨filling, hmem, rfl⟩ := List.mem_map.mp hp
    obtain rfl : filling.1.label = label := by simpa using hlabel
    exact fits filling hmem

end Node.ReadUnder

/-- Fillings of slots by nodes that were read under the flags of their slots. -/
structure WellFilled (g : Productions) (fillings : List Filling) : Prop where
  fits : ∀ p ∈ fillings, p.1.label.Admits p.2
  below : ∀ r flag n, (.call r flag, .node n) ∈ fillings → n.ReadUnder g flag

namespace WellFilled

variable {g : Productions} {fillings more : List Filling}

theorem nil : WellFilled g [] where
  fits p hp := by cases hp
  below r flag n hp := by cases hp

/-- Fillings next to each other are well filled if both parts are. -/
theorem append (h : WellFilled g fillings) (h' : WellFilled g more) :
    WellFilled g (fillings ++ more) where
  fits p hp := (List.mem_append.mp hp).elim (h.fits p) (h'.fits p)
  below r flag n hp := (List.mem_append.mp hp).elim (h.below r flag n) (h'.below r flag n)

/-- A token fills the slot of its demand if it meets it or was put in for it. -/
theorem token {kind : TokenKind} {t : Token}
    (admits : t.meets kind = true ∨ (t.inserted = true ∧ t.kind = kind)) :
    WellFilled g [(.token kind, .token t)] where
  fits p hp := by
    obtain rfl := List.mem_singleton.mp hp
    exact admits
  below r flag n hp := by simp at hp

/-- A node fills the slot of a call under the flag that it was read under. -/
theorem node {n : Node} {constant : Bool} (h : n.ReadUnder g constant) :
    WellFilled g [(.call n.rule constant, .node n)] where
  fits p hp := by
    obtain rfl := List.mem_singleton.mp hp
    rfl
  below r flag m hp := by
    obtain ⟨⟨-, rfl⟩, rfl⟩ : (r = n.rule ∧ flag = constant) ∧ m = n := by simpa using hp
    exact h

end WellFilled

/-! ## Every run fills slots -/

section Running

variable {g : Grammar} {n : Nat} {c : Context} {plan : Plan} {s s' : State} {ending : Ending}

/-- What a run files: fillings of slots that are open in its production, and of a whole row if the
    run ends as it should. -/
structure Fills (g : Productions) (c : Context) (p : Production) (s s' : State) (ending : Ending)
    (fillings : List Filling) : Prop where
  filed : s'.parts.toList = s.parts.toList ++ filings fillings
  filled : WellFilled g fillings
  opened : fillings.map (·.1) ⊆ p.slots c.constant
  whole : ending = .complete → Rows c.constant p (fillings.map (·.1))

/-- Where nothing is filed nothing is filled. -/
theorem Fills.nothing {g : Productions} {p : Production} (same : s'.parts = s.parts)
    (whole : ending = .complete → Rows c.constant p []) : Fills g c p s s' ending [] where
  filed := by simp [same, filings]
  filled := .nil
  opened := by simp
  whole := whole

/-- What fills a production fills any that has its slots and its rows. -/
theorem Fills.within {g : Productions} {p q : Production} {fillings : List Filling}
    (h : Fills g c p s s' ending fillings) (slots : p.slots c.constant ⊆ q.slots c.constant)
    (whole : ∀ row, Rows c.constant p row → Rows c.constant q row) :
    Fills g c q s s' ending fillings where
  filed := h.filed
  filled := h.filled
  opened := List.Subset.trans h.opened slots
  whole complete := whole _ (h.whole complete)

/-- What was filed before a run was cut short belongs to the production that it was cut out of. -/
theorem Fills.cutShort {g : Productions} {p q : Production} {fillings : List Filling}
    (h : Fills g c p s s' ending fillings) (slots : p.slots c.constant ⊆ q.slots c.constant)
    (cuts : ending ≠ .complete) : Fills g c q s s' ending fillings where
  filed := h.filed
  filled := h.filled
  opened := List.Subset.trans h.opened slots
  whole complete := absurd complete cuts

/-- What fills two productions one after the other fills the one that has them in a row. -/
theorem Fills.andThen {g : Productions} {p q r : Production} {mid : State}
    {fillings more : List Filling} (h : Fills g c p s mid .complete fillings)
    (h' : Fills g c q mid s' ending more) (slots : p.slots c.constant ⊆ r.slots c.constant)
    (slots' : q.slots c.constant ⊆ r.slots c.constant)
    (whole : ∀ row row', Rows c.constant p row → Rows c.constant q row' →
      Rows c.constant r (row ++ row')) :
    Fills g c r s s' ending (fillings ++ more) where
  filed := by rw [h'.filed, h.filed, filings_append, List.append_assoc]
  filled := h.filled.append h'.filled
  opened := by
    rw [List.map_append]
    exact List.append_subset.mpr
      ⟨List.Subset.trans h.opened slots, List.Subset.trans h'.opened slots'⟩
  whole complete := by
    rw [List.map_append]
    exact whole _ _ (h.whole rfl) (h'.whole complete)

/-- A rule that is left files a node that was read under the flag of its call, given what its body
    has filed. -/
theorem Fills.close {g : Productions} {rule : Rule} {arg : ConstArg} {follow : List TokenKind}
    {inner : State} {bodyEnding : Ending} {fillings : List Filling}
    (h : Fills g (c.inside rule arg follow) (g.get rule) { s with parts := #[] } inner bodyEnding
      fillings) (tree : c.mode = .tree) (rest : List Token) (recovered : Bool)
    (whole : recovered = false → bodyEnding = .complete) :
    Fills g c (.call rule arg) s
      ((c.inside rule arg follow).close rule recovered s { inner with rest }) ending
      [(.call rule (arg.resolve c.constant),
        .node (.ofParts rule (filings fillings) recovered))] where
  filed := by
    have hparts : inner.parts.toList = filings fillings := h.filed
    rw [parts_close, Context.mode_inside, tree, hparts]
    rfl
  filled := by
    have read := Node.ReadUnder.ofParts _ rule fillings recovered h.filled.fits h.opened
      (fun kept => h.whole (whole kept)) h.filled.below
    exact WellFilled.node read
  opened := List.Subset.refl _
  whole _ := .call

/-- Whatever the tokens are, a run in which a tree is made fills slots that are open under its flag.
    Induction on the run. -/
theorem Run.fills (made : ∀ r, (g.plans.get r).production = g.productions.get r)
    (h : Run g n c plan s s' ending) (tree : c.mode = .tree) :
    ∃ fillings, Fills g.productions c plan.production s s' ending fillings := by
  induction h with
  | @take n c kind follow s met =>
    -- a token that is met fills its slot
    refine ⟨[(.token kind, .token (c.next s.rest))], ?_, .token (.inl met), ?_, fun _ => .token⟩
    · rw [parts_take, tree]
      rfl
    · exact List.Subset.refl _
  | @insert n c kind follow s =>
    -- a token that is missing is put in, and fills the slot
    refine ⟨[(.token kind, .token (.missing kind (c.next s.rest)))], ?_, .token (.inr ⟨rfl, rfl⟩),
      List.Subset.refl _, fun _ => .token⟩
    rw [parts_file, tree]
    rfl
  | @delete n c kind follow s _ met =>
    -- a token that is met behind a redundant one fills its slot
    refine ⟨[(.token kind, .token (c.next s.rest.tail))], ?_, .token (.inl met),
      List.Subset.refl _, fun _ => .token⟩
    rw [parts_take, tree]
    rfl
  -- nothing is filed, by a mistake or because nothing is read
  | miss => exact ⟨[], .nothing rfl (by rintro ⟨⟩)⟩
  | tooDeep => exact ⟨[], .nothing rfl (by rintro ⟨⟩)⟩
  | noRound => exact ⟨[], .nothing rfl (by rintro ⟨⟩)⟩
  | noBranch => exact ⟨[], .nothing rfl (by rintro ⟨⟩)⟩
  | nil => exact ⟨[], .nothing rfl fun _ => .nil⟩
  | skip => exact ⟨[], .nothing rfl fun _ => .skip⟩
  | close _ ih =>
    -- a call files one node, which fills the slot of the rule
    obtain ⟨fillings, fills⟩ := ih tree
    rw [made] at fills
    exact ⟨_, fills.close tree _ false fun _ => rfl⟩
  | resync _ _ ih =>
    obtain ⟨fillings, fills⟩ := ih tree
    rw [made] at fills
    exact ⟨_, fills.close tree _ true (by rintro ⟨⟩)⟩
  | unwind _ _ ih =>
    obtain ⟨fillings, fills⟩ := ih tree
    rw [made] at fills
    exact ⟨_, fills.close tree _ true (by rintro ⟨⟩)⟩
  | abort _ ih =>
    obtain ⟨fillings, fills⟩ := ih tree
    rw [made] at fills
    exact ⟨_, fills.close tree _ true (by rintro ⟨⟩)⟩
  | cons _ _ ih₁ ih₂ =>
    obtain ⟨fillings, fills⟩ := ih₁ tree
    obtain ⟨more, fillsMore⟩ := ih₂ tree
    exact ⟨_, fills.andThen fillsMore (List.subset_append_left ..) (List.subset_append_right ..)
      fun _ _ => .cons⟩
  | cut _ cuts ih =>
    -- the row is cut short, so only the slots up to the mistake are filled
    obtain ⟨fillings, fills⟩ := ih tree
    exact ⟨_, fills.cutShort (List.subset_append_left ..) cuts⟩
  | enter _ _ ih =>
    obtain ⟨fillings, fills⟩ := ih tree
    exact ⟨_, fills.within (List.Subset.refl _) fun _ => .enter⟩
  | @round n c nonempty _ _ _ _ _ _ _ _ _ _ _ ih₁ ih₂ =>
    obtain ⟨fillings, fills⟩ := ih₁ tree
    obtain ⟨more, fillsMore⟩ := ih₂ tree
    cases nonempty with
    | false => exact ⟨_, fills.andThen fillsMore (List.Subset.refl _) (List.Subset.refl _)
        fun _ _ => .again⟩
    | true => exact ⟨_, fills.andThen fillsMore (List.Subset.refl _) (List.Subset.refl _)
        fun _ _ => .once⟩
  | @idle n c nonempty _ _ _ _ _ _ _ _ ih =>
    -- a round that reads nothing is the last one
    obtain ⟨fillings, fills⟩ := ih tree
    cases nonempty with
    | false =>
      refine ⟨_, fills.within (List.Subset.refl _) fun row h => ?_⟩
      exact List.append_nil row ▸ h.again .done
    | true =>
      refine ⟨_, fills.within (List.Subset.refl _) fun row h => ?_⟩
      exact List.append_nil row ▸ h.once .done
  | @broken n c nonempty _ _ _ _ _ _ _ _ breaks ih =>
    obtain ⟨fillings, fills⟩ := ih tree
    cases nonempty <;> exact ⟨_, fills.cutShort (List.Subset.refl _) breaks⟩
  | leave _ recovery => exact ⟨[], .nothing (parts_of_recover recovery) fun _ => .done⟩
  | resume _ recovery _ ih =>
    -- what recovery skips fills no slot
    obtain ⟨fillings, fills⟩ := ih tree
    have same := congrArg Array.toList (parts_of_recover recovery)
    exact ⟨fillings, fills.filed.trans (congrArg (· ++ _) same), fills.filled, fills.opened,
      fills.whole⟩
  | branch chosen allowed _ _ ih =>
    -- the slots of the alternative are slots of the choice
    have chosen := Plan.mem_alternativesOf chosen
    obtain ⟨fillings, fills⟩ := ih tree
    exact ⟨_, fills.within (Production.slots_subset_of_mem chosen allowed)
      fun _ => .branch chosen allowed⟩

end Running

/-- A parse always gives a tree, and the tree was read under the flag that allows variables. -/
theorem exists_tree_readUnder {d : Draft} {g : Grammar} (finished : d.finish = .ok g)
    (entry : Rule) (tokens : List Token) :
    ∃ tree : Node, (g.parse entry tokens).tree = some tree ∧ tree.rule = entry ∧
      tree.ReadUnder g.productions false := by
  obtain ⟨s, ending, run, htree, -⟩ := parse_cases g entry tokens .tree
  obtain ⟨inner, recovered, hparts⟩ := run.exists_node
  obtain ⟨fillings, fills⟩ := run.fills (production_of_finish finished) rfl
  have filed : filings fillings = [(.rule entry, .node (.ofParts entry inner recovered))] :=
    fills.filed.symm.trans hparts
  obtain ⟨⟨slot, e⟩, rfl, heq⟩ := List.map_eq_singleton_iff.mp filed
  obtain ⟨-, rfl⟩ := Prod.mk.inj heq
  -- the one slot of the outermost call is that of the entry rule under its flag
  obtain rfl : slot = .call entry false := List.mem_singleton.mp (fills.opened List.mem_cons_self)
  exact ⟨_, htree.trans (treeOf_eq_some hparts), rfl,
    fills.filled.below entry false _ (List.mem_singleton_self _)⟩

/-- Every node of every tree conforms to its production, and how it was read is told by flags that
    are handed down from the entry rule.  A node that was not given up holds a whole row of what its
    production lays out under its flag, grouped by labels; and in every node, given up or not, no
    label is without elements and nothing stands under a label where it does not belong. -/
theorem every_node_conforms {d : Draft} {g : Grammar} (finished : d.finish = .ok g) (entry : Rule)
    (tokens : List Token) :
    ∃ tree : Node, (g.parse entry tokens).tree = some tree ∧ tree.rule = entry ∧
      tree.ReadUnder g.productions false ∧
      ∀ n : Node, n.Within tree →
        (∃ constant, n.ReadUnder g.productions constant ∧
          (n.recovered = false → ∃ row, Rows constant (g.productions.get n.rule) row ∧
            n.groups.map (·.1) = distinct (row.map Slot.label) ∧
            ∀ label es, (label, es) ∈ n.groups →
              es.length = (row.map Slot.label).count label)) ∧
        ∀ label es, (label, es) ∈ n.groups → es ≠ [] ∧ ∀ e ∈ es, label.Admits e := by
  obtain ⟨tree, htree, hrule, read⟩ := exists_tree_readUnder finished entry tokens
  refine ⟨tree, htree, hrule, read, fun n within => ?_⟩
  obtain ⟨constant, readUnder⟩ := read.within within
  exact ⟨⟨constant, readUnder, readUnder.exists_row⟩, fun _ _ => readUnder.admits⟩

/-- A default value with a variable in a list, where only constants may stand. -/
def variableDefaultTokens : List Token :=
  [{ kind := .punctuator .equals, text := "=" }, { kind := .punctuator .leftBracket, text := "[" },
   { kind := .punctuator .dollar, text := "$" }, { kind := .identifier, text := "a" },
   { kind := .punctuator .rightBracket, text := "]" }]

set_option maxRecDepth 100000 in
/-- The nodes of a default value with a mistake in it conform. -/
theorem every_node_conforms_variable :
    Standard.draft.finish = .ok Standard.grammar ∧
      (Standard.grammar.parse .defaultValue variableDefaultTokens).errors ≠ [] ∧
      ∃ tree : Node,
        (Standard.grammar.parse .defaultValue variableDefaultTokens).tree = some tree ∧
        tree.rule = .defaultValue ∧ tree.ReadUnder Standard.productions false ∧
        ∀ n : Node, n.Within tree →
          (∃ constant, n.ReadUnder Standard.productions constant ∧
            (n.recovered = false → ∃ row, Rows constant (Standard.productions.get n.rule) row ∧
              n.groups.map (·.1) = distinct (row.map Slot.label) ∧
              ∀ label es, (label, es) ∈ n.groups →
                es.length = (row.map Slot.label).count label)) ∧
          ∀ label es, (label, es) ∈ n.groups → es ≠ [] ∧ ∀ e ∈ es, label.Admits e := by
  have mistakes : (Standard.grammar.parse .defaultValue variableDefaultTokens).errors ≠ [] := by
    decide +kernel
  exact ⟨Standard.finish_eq, mistakes,
    every_node_conforms Standard.finish_eq .defaultValue variableDefaultTokens⟩

end GraphQL
