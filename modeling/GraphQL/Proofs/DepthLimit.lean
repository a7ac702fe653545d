/-
  Rules that would nest too deep.

  A rule that would be the 257th active one is not entered.  That mistake is recorded, and it is the
  last: the parse is broken off there, and nothing on the way out reads on.  Rows, repetitions and
  choices only read on after a part that was read to its end, a rule is only gone on from if it is
  stuck, and what is left of the input is only reported if the entry rule was read to its end.

  So a run that is broken off has recorded this mistake last and never before (`Run.broken_off`).
  The active rules are left one by one, innermost first, and each files the node of the one inside
  as its last part before its own is made.  That gives the chain of nodes from the root of the tree
  to the place, one for each active rule, all of them given up.

  Each level is used up by a node on the way down, so no path of the tree is longer than the levels
  there are (`Run.keepsFlat`).
-/
import GraphQL.Proofs.Lockstep
import GraphQL.Proofs.MistakeOrder
import GraphQL.Proofs.Resumption

namespace GraphQL

/-- Whether the fault is that rules would nest too deep. -/
def Fault.isTooDeep : Fault → Bool
  | .tooDeep _ _ _ => true
  | _ => false

/-! ## Paths in a tree -/

namespace Node

/-- Nodes on a way down a tree: each is a child of the one before. -/
def Nested (nodes : List Node) : Prop := nodes.IsChain fun n m => m ∈ n.children

/-- Whether no way down from a node has more nodes on it, itself among them. -/
def Flat (levels : Nat) (n : Node) : Prop :=
  ∀ nodes, nodes.head? = some n → Nested nodes → nodes.length ≤ levels

/-- A node is one level deeper than its parts. -/
theorem flat_ofParts {levels : Nat} {parts : List Part}
    (h : ∀ label m, (label, .node m) ∈ parts → m.Flat levels) (rule : Rule) (recovered : Bool) :
    (ofParts rule parts recovered).Flat (levels + 1) := by
  intro nodes first nested
  match nodes, first with
  | [_], rfl => exact Nat.succ_le_succ (Nat.zero_le levels)
  | _ :: m :: nodes, rfl =>
    obtain ⟨child, below⟩ := List.isChain_cons_cons.mp nested
    obtain ⟨label, mem⟩ := mem_children_ofParts.mp child
    exact Nat.succ_le_succ (h label m mem _ rfl below)

end Node

/-- Whether no node that has been filed is deeper than that. -/
def State.Flat (levels : Nat) (s : State) : Prop :=
  ∀ label n, (label, .node n) ∈ s.parts.toList → n.Flat levels

namespace State.Flat

variable {levels : Nat} {s s' : State}

/-- A state stays flat if only flat nodes are filed. -/
theorem of_parts (h : s.Flat levels) {parts : List Part}
    (filed : s'.parts.toList = s.parts.toList ++ parts)
    (new : ∀ label n, (label, .node n) ∈ parts → n.Flat levels) : s'.Flat levels := by
  intro label n mem
  rw [filed] at mem
  exact (List.mem_append.mp mem).elim (h label n) (new label n)

theorem same (h : s.Flat levels) (filed : s'.parts = s.parts) : s'.Flat levels := by
  intro label n mem
  rw [filed] at mem
  exact h label n mem

/-- Tokens are not nodes. -/
theorem token (h : s.Flat levels) {mode : Mode} {label : Label} {t : Token}
    (filed : s'.parts.toList = s.parts.toList ++ mode.kept [(label, .token t)]) :
    s'.Flat levels := by
  refine h.of_parts filed fun label' n mem => ?_
  cases mode with
  | tree => simp [Mode.kept] at mem
  | recognize => cases mem

/-- However a rule is left, its node is one level deeper than what its body has filed. -/
theorem close {inner : State} (h : s.Flat (levels + 1)) (body : inner.Flat levels) (c : Context)
    (rule : Rule) (recovered : Bool) : (c.close rule recovered s inner).Flat (levels + 1) := by
  refine h.of_parts (parts_close c s inner rule recovered) fun label n mem => ?_
  generalize c.mode = mode at mem
  cases mode with
  | tree =>
    obtain ⟨-, same⟩ := Prod.mk.inj (List.mem_singleton.mp mem)
    cases same
    exact Node.flat_ofParts body rule recovered
  | recognize => cases mem

end State.Flat

/-! ## Mistakes of other kinds -/

/-- Mistakes are added, and none of them is that rules would nest too deep. -/
def AddsOthers (old new : Array SyntaxError) : Prop :=
  ∃ more, new.toList = old.toList ++ more ∧ ∀ e ∈ more, e.fault.isTooDeep = false

namespace AddsOthers

variable {old mid new : Array SyntaxError}

theorem nothing : AddsOthers old old := ⟨[], (List.append_nil _).symm, fun _ => nofun⟩

theorem one {e : SyntaxError} (h : new.toList = old.toList ++ [e])
    (other : e.fault.isTooDeep = false) : AddsOthers old new :=
  ⟨[e], h, fun _ mem => List.mem_singleton.mp mem ▸ other⟩

theorem trans (h : AddsOthers old mid) (h' : AddsOthers mid new) : AddsOthers old new := by
  obtain ⟨more, hm, others⟩ := h
  obtain ⟨more', hn, others'⟩ := h'
  refine ⟨more ++ more', by rw [hn, hm, List.append_assoc], fun e mem => ?_⟩
  exact (List.mem_append.mp mem).elim (others e) (others' e)

/-- A repetition that does not open adds a mistake of another kind, or none. -/
theorem recover {c : Context} {ahead : Lookahead} {after : AfterRepetition} {s : State}
    {r : Context.Recovery} (h : c.recover ahead after s = r) :
    AddsOthers s.errors r.state.errors := by
  have one : ∀ expected found rest,
      AddsOthers s.errors (c.recordUnexpected expected found { s with rest }).errors := by
    intro expected found rest
    unfold Context.recordUnexpected
    split <;> exact .one (errors_record ..) rfl
  obtain rfl | ⟨expected, skipped, rest, -, rfl | rfl⟩ := recover_cases h
  · exact .nothing
  · exact one expected _ rest
  · exact one expected _ rest

end AddsOthers

/-! ## Runs that are broken off -/

/-- What a run leaves that was broken off with a mistake: the rules that were active, of which those
    that the run entered have nodes, each below the one before. -/
structure BrokenOff (c : Context) (levels : Nat) (s : State) (e : SyntaxError)
    (nodes : List Node) : Prop where
  tooDeep : e.fault.isTooDeep = true
  stack : e.stack = c.stack ++ nodes.map Node.rule
  length : nodes.length = levels
  recovered : ∀ n ∈ nodes, n.recovered = true
  nested : c.mode = .tree → Node.Nested nodes
  filed : c.mode = .tree → ∀ n, nodes.head? = some n → (.rule n.rule, .node n) ∈ s.parts.toList

/-- A rule that is broken off files its node, above the one that its body has filed last. -/
theorem BrokenOff.close {c : Context} {levels : Nat} {rule : Rule} {arg : ConstArg}
    {follow : List TokenKind} {inner : State} {e : SyntaxError} {nodes : List Node}
    (h : BrokenOff (c.inside rule arg follow) levels inner e nodes) (s : State) :
    BrokenOff c (levels + 1) ((c.inside rule arg follow).close rule true s inner) e
      (.ofParts rule inner.parts.toList true :: nodes) where
  tooDeep := h.tooDeep
  stack := by rw [h.stack, Context.stack_inside, List.append_assoc]; rfl
  length := congrArg Nat.succ h.length
  recovered := List.forall_mem_cons.mpr ⟨rfl, h.recovered⟩
  nested tree := by
    cases nodes with
    | nil => exact List.isChain_singleton _
    | cons n nodes =>
      -- the outermost of the nodes so far is now held by that of the call
      have filed := h.filed tree n rfl
      exact List.isChain_cons_cons.mpr ⟨Node.mem_children_ofParts.mpr ⟨_, filed⟩, h.nested tree⟩
  filed tree n first := by
    cases first
    rw [parts_close, Context.mode_inside, tree]
    exact List.mem_append_right _ (List.mem_singleton_self _)

section Runs

variable {g : Grammar} {n : Nat} {c : Context} {plan : Plan} {s s' : State} {ending : Ending}

/-- A run adds mistakes of other kinds only, unless it is broken off, and then it adds one more.
    Induction on the run; where it goes on after a part, that part was not broken off. -/
theorem Run.broken_off (h : Run g n c plan s s' ending) :
    (ending ≠ .aborted → AddsOthers s.errors s'.errors) ∧
      (ending = .aborted → ∃ errors e nodes, AddsOthers s.errors errors ∧
        s'.errors.toList = errors.toList ++ [e] ∧ BrokenOff c n s' e nodes) := by
  induction h with
  | take => exact ⟨fun _ => errors_take .. ▸ .nothing, nofun⟩
  | nil | skip => exact ⟨fun _ => .nothing, nofun⟩
  | insert =>
    refine ⟨fun _ => ?_, nofun⟩
    rw [errors_file]
    exact .one (errors_recordMismatch ..) rfl
  | delete =>
    refine ⟨fun _ => ?_, nofun⟩
    rw [errors_take]
    exact .one (errors_recordMismatch ..) rfl
  | miss => exact ⟨fun _ => .one (errors_recordMismatch ..) rfl, nofun⟩
  | noRound | noBranch => exact ⟨fun _ => .one (errors_record ..) rfl, nofun⟩
  | close _ ih | resync _ _ ih | unwind _ _ ih =>
    refine ⟨fun _ => ?_, nofun⟩
    rw [errors_close]
    exact ih.1 nofun
  | abort _ ih =>
    -- the call adds its own node to the row and hands the breaking off outwards
    obtain ⟨errors, e, nodes, others, last, broken⟩ := ih.2 rfl
    refine ⟨fun other => absurd rfl other, fun _ => ⟨errors, e, _, others, ?_, broken.close _⟩⟩
    rw [errors_close]
    exact last
  | @tooDeep c rule arg follow s =>
    -- the limit itself: one mistake, and no node yet
    refine ⟨fun other => absurd rfl other, fun _ => ?_⟩
    refine ⟨s.errors, _, [], .nothing, errors_record .., ?_⟩
    exact ⟨rfl, (List.append_nil _).symm, rfl, fun _ => nofun, fun _ => .nil, fun _ _ => nofun⟩
  | cut _ _ ih | enter _ _ ih | idle _ _ _ ih | broken _ _ _ ih | branch _ _ _ _ ih => exact ih
  | cons _ _ ih₁ ih₂ | round _ _ _ _ ih₁ ih₂ =>
    -- what was read before has added other mistakes only
    have before := ih₁.1 nofun
    refine ⟨fun other => before.trans (ih₂.1 other), fun aborted => ?_⟩
    obtain ⟨errors, e, nodes, others, last, broken⟩ := ih₂.2 aborted
    exact ⟨errors, e, nodes, before.trans others, last, broken⟩
  | leave _ recovery => exact ⟨fun _ => .recover recovery, nofun⟩
  | resume _ recovery _ ih =>
    have before := AddsOthers.recover recovery
    refine ⟨fun other => before.trans (ih.1 other), fun aborted => ?_⟩
    obtain ⟨errors, e, nodes, others, last, broken⟩ := ih.2 aborted
    exact ⟨errors, e, nodes, before.trans others, last, broken⟩

/-- No node that a run files is deeper than the levels that were left. -/
theorem Run.keepsFlat (h : Run g n c plan s s' ending) (flat : s.Flat n) : s'.Flat n := by
  induction h with
  | take => exact flat.token (parts_take ..)
  | insert => exact flat.token (parts_file ..)
  | delete => exact flat.token (parts_take ..)
  | miss | tooDeep | noRound | noBranch | nil | skip => exact flat
  | close _ ih | unwind _ _ ih | abort _ ih =>
    exact flat.close (ih fun _ _ => nofun) _ _ _
  | @resync _ c rule arg follow _ inner _ _ ih =>
    let rest := (c.inside rule arg follow).resyncPoint inner.rest
    have body : State.Flat _ { inner with rest } := (ih fun _ _ => nofun).same rfl
    exact flat.close body _ _ _
  | cut _ _ ih | enter _ _ ih | idle _ _ _ ih | broken _ _ _ ih | branch _ _ _ _ ih => exact ih flat
  | cons _ _ ih₁ ih₂ | round _ _ _ _ ih₁ ih₂ => exact ih₂ (ih₁ flat)
  | leave _ recovery => exact flat.same (parts_of_recover recovery)
  | resume _ recovery _ ih => exact ih (flat.same (parts_of_recover recovery))

end Runs

/-! ## Whole parses -/

/-- The tree of a finished reading has been filed. -/
theorem mem_of_treeOf {s : State} {tree : Node} (h : Grammar.treeOf s = some tree) :
    ∃ label, (label, .node tree) ∈ s.parts.toList := by
  obtain ⟨⟨label, e⟩, first, node⟩ := Option.bind_eq_some_iff.mp h
  cases e with
  | token t => cases node
  | node n =>
    cases node
    exact ⟨label, Array.mem_toList_iff.mpr (Array.mem_of_getElem? first)⟩

section Parses

variable (g : Grammar) (entry : Rule) (tokens : List Token) (mode : Mode)

/-- The reading of the entry rule is read to its end or broken off. -/
theorem ending_of_enter {s : State} {ending : Ending}
    (entered : g.enter mode (.endOf tokens) maxDepth [] entry false [] { rest := tokens }
      = (s, ending)) : ending = .complete ∨ ending = .aborted := by
  cases ending with
  | complete => exact .inl rfl
  | aborted => exact .inr rfl
  | stuck => exact absurd entered (result_whole_ne_stuck g mode entry tokens s)

/-- A parse that is not broken off has mistakes of other kinds only; one that is has one more, the
    last, and where a tree is made the nodes of the active rules stand in it from the root down. -/
theorem parse_broken_off {s : State} {ending : Ending}
    (entered : g.enter mode (.endOf tokens) maxDepth [] entry false [] { rest := tokens }
      = (s, ending)) :
    (ending = .complete ∧
      ∀ e ∈ (g.parse entry tokens mode).errors, e.fault.isTooDeep = false) ∨
    (ending = .aborted ∧ ∃ others e nodes, (∀ e ∈ others, e.fault.isTooDeep = false) ∧
      (g.parse entry tokens mode).errors = others ++ [e] ∧
      BrokenOff (.outermost mode tokens) maxDepth s e nodes) := by
  obtain ⟨s, ending, same, -, errors⟩ := parse_enter g entry tokens mode
  cases same.symm.trans entered
  obtain ⟨whole, broken⟩ := (run_of_enter entered).broken_off
  rcases ending_of_enter g entry tokens mode entered with rfl | rfl
  · -- the parse was read to its end, and at most redundant input is still recorded
    obtain ⟨more, added, others⟩ := whole nofun
    have added : s.errors.toList = more := added
    refine .inl ⟨rfl, fun e mem => ?_⟩
    rcases errors with ⟨found, rest, -, -, errors⟩ | ⟨-, errors⟩
    · rw [errors, added] at mem
      rcases List.mem_append.mp mem with mem | mem
      · exact others e mem
      · exact List.mem_singleton.mp mem ▸ rfl
    · rw [errors, added] at mem
      exact others e mem
  · -- the parse was broken off, and nothing is recorded behind that
    obtain ⟨before, e, nodes, ⟨more, added, others⟩, last, broken⟩ := broken rfl
    have added : before.toList = more := added
    refine .inr ⟨rfl, more, e, nodes, others, ?_, broken⟩
    rcases errors with ⟨_, _, complete, -⟩ | ⟨-, errors⟩
    · cases complete
    · rw [errors, last, added]

/-- The tree of a parse that is broken off begins the nodes of the active rules. -/
theorem BrokenOff.exists_tree {s : State} {ending : Ending} {e : SyntaxError} {nodes : List Node}
    (h : BrokenOff (.outermost .tree tokens) maxDepth s e nodes)
    (entered : g.enter .tree (.endOf tokens) maxDepth [] entry false [] { rest := tokens }
      = (s, ending)) :
    ∃ tree, Grammar.treeOf s = some tree ∧ nodes.head? = some tree := by
  -- the one part that is filed at the end is the node of the entry rule
  obtain ⟨inner, recovered, parts⟩ := (run_of_enter entered).exists_node
  have parts : s.parts.toList = [(.rule entry, .node (.ofParts entry inner recovered))] := parts
  cases nodes with
  | nil => cases h.length
  | cons n nodes =>
    have filed := h.filed rfl n rfl
    rw [parts, List.mem_singleton] at filed
    cases (Prod.mk.inj filed).2
    exact ⟨_, treeOf_eq_some parts, rfl⟩

end Parses

/-- Rules that would nest too deep end a parse.  That mistake is recorded once at most, and after
    all others.  It names as many rules as may be active, and if a tree is made their nodes stand in
    it one below the other from the root on, all of them given up.  No way down a tree has more
    nodes on it.  And the reading of the entry rule only ends otherwise than it should if the
    mistake is recorded. -/
theorem nesting_limit_ends_parse (g : Grammar) (entry : Rule) (tokens : List Token) (mode : Mode) :
    ((g.parse entry tokens mode).errors.filter fun e => e.fault.isTooDeep).length ≤ 1 ∧
    (∀ e ∈ (g.parse entry tokens mode).errors, e.fault.isTooDeep = true →
      (g.parse entry tokens mode).errors.getLast? = some e ∧ e.stack.length = maxDepth ∧
      (mode = .tree → ∃ tree nodes, (g.parse entry tokens mode).tree = some tree ∧
        nodes.head? = some tree ∧ Node.Nested nodes ∧ nodes.map Node.rule = e.stack ∧
        ∀ n ∈ nodes, n.recovered = true)) ∧
    (∀ tree nodes, (g.parse entry tokens mode).tree = some tree → nodes.head? = some tree →
      Node.Nested nodes → nodes.length ≤ maxDepth) ∧
    ∀ s ending,
      g.enter mode (.endOf tokens) maxDepth [] entry false [] { rest := tokens } = (s, ending) →
      (ending ≠ .complete ↔
        ∃ e ∈ (g.parse entry tokens mode).errors, e.fault.isTooDeep = true) := by
  obtain ⟨s, ending, entered, tree, -⟩ := parse_enter g entry tokens mode
  have known := parse_broken_off g entry tokens mode entered
  refine ⟨?_, ?_, ?_, ?_⟩
  · -- the limit is met once at most
    rcases known with ⟨-, others⟩ | ⟨-, more, e, nodes, others, errors, -⟩
    · rw [List.filter_eq_nil_iff.mpr fun e mem => ne_true_of_eq_false (others e mem)]
      exact Nat.zero_le 1
    · rw [errors, List.filter_append,
        List.filter_eq_nil_iff.mpr fun e mem => ne_true_of_eq_false (others e mem),
        List.nil_append]
      exact List.length_filter_le _ [e]
  · -- its mistake is the last, and the nodes that were broken off are its stack
    intro e mem tooDeep
    rcases known with ⟨-, others⟩ | ⟨-, more, last, nodes, others, errors, broken⟩
    · rw [others e mem] at tooDeep
      cases tooDeep
    · have same : e = last := by
        rw [errors] at mem
        rcases List.mem_append.mp mem with mem | mem
        · rw [others e mem] at tooDeep
          cases tooDeep
        · exact List.mem_singleton.mp mem
      subst same
      have stack : e.stack = nodes.map Node.rule := broken.stack
      refine ⟨?_, ?_, fun inTree => ?_⟩
      · rw [errors, List.getLast?_concat]
      · rw [stack, List.length_map, broken.length]
      · subst inTree
        obtain ⟨root, made, first⟩ := broken.exists_tree g entry tokens entered
        exact ⟨root, nodes, tree.trans made, first, broken.nested rfl, stack.symm,
          broken.recovered⟩
  · -- no tree is deeper than the limit
    intro root nodes found first nested
    obtain ⟨label, filed⟩ := mem_of_treeOf (tree.symm.trans found)
    have flat : s.Flat maxDepth := (run_of_enter entered).keepsFlat fun _ _ => nofun
    exact flat label root filed nodes first nested
  · -- the parse ends early exactly if the limit was met
    intro s' ending' entered'
    cases entered.symm.trans entered'
    rcases known with ⟨rfl, others⟩ | ⟨rfl, more, e, nodes, -, errors, broken⟩
    · refine ⟨fun cut => absurd rfl cut, ?_⟩
      rintro ⟨e, mem, tooDeep⟩
      rw [others e mem] at tooDeep
      cases tooDeep
    · refine ⟨fun _ => ⟨e, ?_, broken.tooDeep⟩, fun _ => nofun⟩
      rw [errors]
      exact List.mem_append_right _ (List.mem_singleton_self e)

set_option maxRecDepth 100000 in
/-- Lists within lists, opened deeper than rules may nest: the parse is broken off in a chain of as
    many nodes as rules may be active. -/
theorem nesting_limit_ends_parse_lists :
    ((Standard.grammar.parse .value nestedTokens).errors.map fun e => e.fault.isTooDeep) = [true] ∧
      ∃ e tree nodes, (Standard.grammar.parse .value nestedTokens).errors.getLast? = some e ∧
        (Standard.grammar.parse .value nestedTokens).tree = some tree ∧
        nodes.head? = some tree ∧ Node.Nested nodes ∧ nodes.length = maxDepth ∧
        nodes.map Node.rule = e.stack ∧ ∀ n ∈ nodes, n.recovered = true := by
  have one : ((Standard.grammar.parse .value nestedTokens).errors.map fun e =>
      e.fault.isTooDeep) = [true] := by
    decide +kernel
  obtain ⟨e, errors, tooDeep⟩ := List.map_eq_singleton_iff.mp one
  obtain ⟨-, last, -, -⟩ := nesting_limit_ends_parse Standard.grammar .value nestedTokens .tree
  obtain ⟨last, length, chain⟩ := last e (errors ▸ List.mem_singleton_self e) tooDeep
  obtain ⟨tree, nodes, found, first, nested, stack, recovered⟩ := chain rfl
  refine ⟨one, e, tree, nodes, last, found, first, nested, ?_, stack, recovered⟩
  rw [← length, ← stack, List.length_map]

end GraphQL
