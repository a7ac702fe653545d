/-
  Definitions are read whatever executable definitions stand before them.

  An executable definition closes with a brace, so where it ends does not depend on what follows:
  its derivation may stand before any tokens (`movable_executable`), and a reading follows it there
  (`reading_definition`).  A document therefore goes round over such definitions and arrives at the
  tokens behind them with nothing recorded.

  From there on it does what it would have done without them.  All that is left of them is what has
  been filed, and nothing that a reading does depends on that: it goes in lockstep with one that has
  filed less (`State.behind`, `enter_behind`).
-/
import GraphQL.Proofs.BuildingDocument
import GraphQL.Proofs.Clauses
import GraphQL.Proofs.Lockstep
import GraphQL.Proofs.Matches
import GraphQL.Proofs.OpenFollow
import GraphQL.Proofs.Relocation

namespace GraphQL

/-! ## Parts that were filed before -/

/-- The state in which some parts had been filed before all others. -/
abbrev State.behind (before : Array Part) (s : State) : State := s.mapParts (before ++ ·)

section Behind

variable {before : Array Part}

theorem map_behind_nothing (result : State × Ending) :
    Prod.map (State.behind #[]) id result = result := by
  obtain ⟨s, ending⟩ := result
  simp [State.mapParts]

/-- A part is filed behind those that were there before. -/
theorem file_behind (mode : Mode) (part : Part) (s : State) :
    (s.behind before).file mode part = (s.file mode part).behind before := by
  cases mode with
  | tree => simp [State.file, State.mapParts]
  | recognize => rfl

/-- A call files its node behind the parts that were there before. -/
theorem close_behind (c : Context) (rule : Rule) (recovered : Bool) (outer inner : State) :
    c.close rule recovered (outer.behind before) inner
      = (c.close rule recovered outer inner).behind before :=
  file_behind c.mode _ { outer with rest := inner.rest, errors := inner.errors }

/-- A call ends alike whatever was filed before it. -/
theorem leave_behind (c : Context) (rule : Rule) (outer : State) (result : State × Ending) :
    c.leave rule (outer.behind before) result
      = Prod.map (State.behind before) id (c.leave rule outer result) := by
  obtain ⟨inner, ending⟩ := result
  cases ending with
  | complete => exact congrArg (·, Ending.complete) (close_behind c rule false outer inner)
  | aborted => exact congrArg (·, Ending.aborted) (close_behind c rule true outer inner)
  | stuck =>
    simp only [Context.leave]
    split
    · exact congrArg (·, Ending.complete)
        (close_behind c rule true outer { inner with rest := c.resyncPoint inner.rest })
    · exact congrArg (·, Ending.stuck) (close_behind c rule true outer inner)

/-- A rule is entered alike whatever has been filed before it. -/
theorem enter_behind (g : Grammar) (mode : Mode) (endToken : Token) (levels : Nat)
    (frames : List Frame) (rule : Rule) (constant : Bool) (follow : List TokenKind) (s : State) :
    g.enter mode endToken levels frames rule constant follow (s.behind before)
      = Prod.map (State.behind before) id
          (g.enter mode endToken levels frames rule constant follow s) := by
  cases levels with
  | zero => rfl
  | succ levels => exact leave_behind _ rule s _

/-- A repetition of a rule is read alike whatever has been filed before it. -/
theorem iterate_behind (before : Array Part) (g : Grammar) (n : Nat) (c : Context) (ahead : Lookahead)
    (after : AfterRepetition) (callee : Rule) (arg : ConstArg) (follow : List TokenKind)
    (s : State) :
    c.iterate ahead after (g.reading n c (.call callee arg follow)) (s.behind before)
      = Prod.map (State.behind before) id
          (c.iterate ahead after (g.reading n c (.call callee arg follow)) s) := by
  have length : ∀ s, (State.behind before s).rest.length = s.rest.length := fun _ => rfl
  have sees : ∀ s, c.sees ahead (State.behind before s).rest = c.sees ahead s.rest := fun _ => rfl
  have recovered := fun s => recover_mapParts c s (before ++ ·) ahead after
  have body : ∀ s, g.reading n c (.call callee arg follow) (s.behind before)
      = Prod.map (State.behind before) id (g.reading n c (.call callee arg follow) s) := by
    intro s
    exact enter_behind g c.mode c.endToken n c.frames callee (arg.resolve c.constant) follow s
  exact iterate_lockstep length sees recovered body s

end Behind

/-! ## Executable definitions before anything -/

namespace Standard

/-- The rules that an executable definition is made of. -/
def executableRules : List Rule :=
  [.executableDefinition, .operationDefinition, .fragmentDefinition, .operationType, .selectionSet,
    .selection, .field, .alias, .arguments, .argument, .fragmentSpread, .inlineFragment,
    .fragmentName, .typeCondition, .value, .booleanValue, .nullValue, .enumValue, .listValue,
    .objectValue, .objectField, .variableDefinitions, .variableDefinition, .variable,
    .defaultValue, .type, .namedType, .listType, .directives, .directive]

set_option maxRecDepth 100000 in
theorem calls_subset_executableRules :
    ∀ r ∈ executableRules, (productions.get r).calls ⊆ executableRules := by
  decide +kernel

/-- No rule of an executable definition has a clause in braces that may be left out. -/
theorem clause?_executableRules : ∀ r ∈ executableRules, clause? r = none := by decide

section Executable

variable {n : Nat} {constant : Bool} {p : Production} {tokens rest : List Token}
  {parts : List Part} {arg : ConstArg}

/-- A derivation by the rules of an executable definition may stand before any tokens. -/
theorem movable_executable (called : p.calls ⊆ executableRules)
    (h : Derives productions NoDangling n constant p tokens parts rest) :
    ∃ taken, tokens = taken ++ rest ∧
      ∀ rest', Derives productions NoDangling n constant p (taken ++ rest') parts rest' := by
  have level := Nat.le_refl n
  have free : Derives productions anywhere n constant p tokens parts rest :=
    h.among calls_subset_executableRules (fun _ _ _ _ _ => trivial) called level
  obtain ⟨taken, htokens, move⟩ := free.movable
  refine ⟨taken, htokens, fun rest' => ?_⟩
  have moved := move rest' (fun _ _ _ _ => trivial)
  exact moved.among calls_subset_executableRules
    (fun r hr _ _ _ => noDangling_of_none (clause?_executableRules r hr)) called level

/-- A definition that has an executable one is derived as that. -/
theorem exists_executable {d : Node}
    (h : Derives productions NoDangling (n + 1) constant (.call .definition arg) tokens
      [(.rule .definition, .node d)] rest)
    (executable : d.has (.rule .executableDefinition) = true) :
    ∃ parts, d = .ofParts .definition parts false ∧
      Derives productions NoDangling n (arg.resolve constant) (rule .executableDefinition) tokens
        parts rest := by
  cases h with
  | @call _ _ _ _ _ parts _ body _ =>
    refine ⟨parts, rfl, ?_⟩
    have used := Node.has_ofParts.mp executable
    rw [productions, RuleTable.get_ofFn] at body
    have body : Derives _ _ _ _ (.choice [(.always, rule .executableDefinition),
      (.always, rule .typeSystemDefinition), (.always, rule .typeSystemExtension)]) _ _ _ := body
    cases body with
    | branch chosen _ inside =>
      -- the other alternatives file their own rule and no other
      rcases List.mem_cons.mp chosen with first | chosen
      · cases first
        exact inside
      · rcases List.mem_cons.mp chosen with second | chosen
        · cases second
          cases inside
          simp at used
        · cases List.mem_singleton.mp chosen
          cases inside
          simp at used

/-- A definition that has an executable one may stand before any tokens. -/
theorem movable_definition {d : Node}
    (h : Derives productions NoDangling n constant (.call .definition arg) tokens
      [(.rule .definition, .node d)] rest)
    (executable : d.has (.rule .executableDefinition) = true) :
    ∃ taken, tokens = taken ++ rest ∧
      ∀ rest', Derives productions NoDangling n constant (.call .definition arg) (taken ++ rest')
        [(.rule .definition, .node d)] rest' := by
  cases n with
  | zero => cases h
  | succ n =>
    obtain ⟨parts, rfl, inside⟩ := exists_executable h executable
    have called : (rule .executableDefinition).calls ⊆ executableRules := by decide
    obtain ⟨taken, htokens, move⟩ := movable_executable called inside
    refine ⟨taken, htokens, fun rest' => ?_⟩
    exact derives_call (.branch (.head _) rfl (move rest')) (noDangling_of_none rfl)

/-! ### Readings of executable definitions -/

variable {c : Context} {s : State} {follow : List TokenKind}

/-- An executable definition is read along its derivation, whatever comes behind it. -/
theorem reading_executable (tree : c.mode = .tree) (called : c.frames ≠ [])
    (atEnd : c.endToken.kind = .endOfInput)
    (h : Derives productions NoDangling n c.constant (.call .executableDefinition arg) s.rest parts
      rest) :
    grammar.reading n c (.call .executableDefinition arg follow) s
      = (s.advance rest parts, .complete) := by
  cases h with
  | call body _ =>
    -- the token behind it is of some kind, and the table has them all
    have anything : ∀ used, ∃ kind ∈ openTable.given .executableDefinition used,
        (c.next rest).meets kind = true := by
      intro used
      refine ⟨(c.next rest).kind, ?_, TokenKind.satisfies_refl _⟩
      exact List.mem_append_left _ (TokenKind.mem_all _)
    exact read_call tree <| read_of_derives predictive_openTable body rfl rfl <|
      .body_of_call predictive_openTable tree atEnd (fun none => absurd none called) (anything _)

/-- A definition that has an executable one is read along its derivation, whatever comes behind
    it. -/
theorem reading_definition {d : Node} (tree : c.mode = .tree)
    (atEnd : c.endToken.kind = .endOfInput)
    (h : Derives productions NoDangling n c.constant (.call .definition arg) s.rest
      [(.rule .definition, .node d)] rest)
    (executable : d.has (.rule .executableDefinition) = true) :
    grammar.reading n c (.call .definition arg follow) s
      = (s.advance rest [(.rule .definition, .node d)], .complete) := by
  cases n with
  | zero => cases h
  | succ n =>
    obtain ⟨parts, rfl, inside⟩ := exists_executable h executable
    refine read_call tree ?_
    -- of the branches of a definition the first is taken, since what it derives is seen
    have made := predictive.made .definition
    rw [show grammar.productions.get .definition = .choice [(.always, rule .executableDefinition),
      (.always, rule .typeSystemDefinition), (.always, rule .typeSystemExtension)] from rfl] at made
    obtain ⟨aheads, branches, resolved, made, plan⟩ := Productions.plan_choice made
    obtain ⟨depth, -, rfl⟩ := Productions.resolveChoice_eq_ok resolved
    obtain ⟨first, others, made, -, rfl⟩ := Productions.planBranches_cons made
    cases made
    have row := Derives.cons inside .nil
    have seen : (c.inside .definition arg follow).sees
        ⟨depth, grammar.productions.openings depth [rule .executableDefinition]⟩ s.rest = true :=
      sees_of_derives ranked (by decide +kernel) rfl row
    rw [plan]
    show Plan.read _ _ (.choice _) _ = _
    rw [Plan.read, Plan.readBranch, if_pos (by simpa [Gate.allows] using seen)]
    exact reading_executable tree (List.cons_ne_nil _ _) atEnd inside

/-! ### Rounds over executable definitions -/

/-- A document is a repetition of definitions. -/
theorem exists_plan_document :
    ∃ ahead follow after, grammar.plans.get .document
        = .repetition false ahead (.call .definition (.fixed false) follow) after ∧
      ahead.paths = productions.openings ahead.depth
        [rule .definition, .many (rule .definition)] := by
  have made := predictive.made .document
  rw [show grammar.productions.get .document = .many (rule .definition) from rfl] at made
  obtain ⟨ahead, inner, resolved, made, plan⟩ := Productions.plan_many made
  cases made
  exact ⟨ahead, _, _, plan, (Productions.resolveOptional_eq_ok resolved).2⟩

/-- A document goes round over executable definitions and is then in the place that it would be in
    without them, with the definitions filed.  Induction on the rounds. -/
theorem exists_rounds (h : Derives productions NoDangling n constant p tokens parts rest)
    (many : p = .many (rule .definition))
    (executable : ∀ d, (.rule .definition, .node d) ∈ parts →
      d.has (.rule .executableDefinition) = true) :
    ∃ taken, tokens = taken ++ rest ∧
      ∀ (c : Context) (s : State) (rest' : List Token), c.mode = .tree → c.constant = constant →
        c.endToken.kind = .endOfInput → s.rest = taken ++ rest' →
          grammar.reading n c (grammar.plans.get .document) s
            = grammar.reading n c (grammar.plans.get .document) (s.advance rest' parts) := by
  -- by induction on the rounds of a document
  induction h with
  | token | call | nil | cons | skip | enter | once | branch => cases many
  | done =>
    refine ⟨[], rfl, fun c s rest' _ _ _ start => ?_⟩
    rw [List.nil_append] at start
    rw [← start, advance_nil]
  | @again n constant body tokens parts mid more rest first others _ ih =>
    -- one definition is read, and then the rounds behind it
    cases many
    -- the one part of a round is its definition
    obtain ⟨d, rfl⟩ : ∃ d, parts = [(.rule .definition, .node d)] := by
      cases first
      exact ⟨_, rfl⟩
    have hd := executable d (List.mem_append_left _ (List.mem_singleton_self _))
    obtain ⟨taken₁, rfl, move⟩ := movable_definition first hd
    obtain ⟨taken₂, rfl, rounds⟩ := ih rfl fun d hd => executable d (List.mem_append_right _ hd)
    refine ⟨taken₁ ++ taken₂, (List.append_assoc ..).symm, ?_⟩
    intro c s rest' tree flag atEnd start
    rw [List.append_assoc] at start
    have definition : Derives productions NoDangling n c.constant (rule .definition) s.rest
        [(.rule .definition, .node d)] (taken₂ ++ rest') := by
      rw [start, flag]
      exact move (taken₂ ++ rest')
    -- the round is seen at its first token, and after it fewer tokens are left
    obtain ⟨ahead, follow, after, plan, paths⟩ := exists_plan_document
    have opens : c.sees ahead s.rest = true :=
      sees_of_derives ranked (by decide +kernel) paths (.cons definition (.cons .done .nil))
    have read : grammar.reading n c (.call .definition (.fixed false) follow) s = _ :=
      reading_definition tree atEnd definition hd
    have shorter : (taken₂ ++ rest').length < s.rest.length :=
      length_lt_of_derives ranked (by rw [nullableRules_eq]; rfl) definition
    have round := iterate_round after opens read shorter
    rw [← advance_advance, ← rounds c _ rest' tree flag atEnd rfl, plan]
    exact round

end Executable

end Standard

/-! ## Whole documents -/

/-- How a rule is left does not depend on what it has filed. -/
theorem Context.exists_leave (c : Context) (tree : c.mode = .tree) (rule : Rule)
    (result : State × Ending) :
    ∃ rest errors recovered ending, ∀ (before : Array Part) (outer : State), outer.parts = #[] →
      c.leave rule outer (Prod.map (State.behind before) id result)
        = (⟨rest, #[(.rule rule,
            .node (.ofParts rule (before ++ result.1.parts).toList recovered))], errors⟩, ending) := by
  obtain ⟨inner, ending⟩ := result
  -- the node that is filed has the parts from before in front
  have closes : ∀ (recovered : Bool) (rest : List Token) (before : Array Part) (outer : State),
      outer.parts = #[] →
        c.close rule recovered outer { inner.behind before with rest }
          = ⟨rest, #[(.rule rule,
              .node (.ofParts rule (before ++ inner.parts).toList recovered))], inner.errors⟩ := by
    intro recovered rest before outer fresh
    simp [Context.close, State.file, tree, fresh, State.mapParts]
  cases ending with
  | complete =>
    refine ⟨inner.rest, inner.errors, false, .complete, fun before outer fresh => ?_⟩
    exact congrArg (·, Ending.complete) (closes false inner.rest before outer fresh)
  | aborted =>
    refine ⟨inner.rest, inner.errors, true, .aborted, fun before outer fresh => ?_⟩
    exact congrArg (·, Ending.aborted) (closes true inner.rest before outer fresh)
  | stuck =>
    -- whether the call resumes depends on the tokens that are left, and not on the parts
    by_cases resumes : c.resumesAt (c.resyncPoint inner.rest) = true
    · refine ⟨c.resyncPoint inner.rest, inner.errors, true, .complete, fun before outer fresh => ?_⟩
      refine (if_pos resumes).trans ?_
      exact congrArg (·, Ending.complete) (closes true _ before outer fresh)
    · refine ⟨inner.rest, inner.errors, true, .stuck, fun before outer fresh => ?_⟩
      refine (if_neg resumes).trans ?_
      exact congrArg (·, Ending.stuck) (closes true inner.rest before outer fresh)

/-- The mistakes of a parse do not depend on what it has filed. -/
theorem exists_recorded (rest : List Token) (errors : Array SyntaxError) (ending : Ending) :
    ∃ recorded, ∀ {g : Grammar} {entry : Rule} {tokens : List Token} {label : Label} {n : Node},
      g.enter .tree (.endOf tokens) maxDepth [] entry false [] { rest := tokens }
          = (⟨rest, #[(label, .node n)], errors⟩, ending) →
        g.parse entry tokens = ⟨some n, recorded⟩ := by
  -- what is recorded at the end depends on the tokens that are left, and on how the call ended
  cases ending with
  | complete =>
    cases rest with
    | nil =>
      refine ⟨errors.toList, fun read => ?_⟩
      rw [Grammar.parse, read]
      rfl
    | cons found rest =>
      refine ⟨(errors.push ⟨.redundantInput found.text, found.span, []⟩).toList, fun read => ?_⟩
      rw [Grammar.parse, read]
      rfl
  | stuck =>
    refine ⟨errors.toList, fun read => ?_⟩
    rw [Grammar.parse, read]
    rfl
  | aborted =>
    refine ⟨errors.toList, fun read => ?_⟩
    rw [Grammar.parse, read]
    rfl

/-- The end behind two lists of tokens is that behind the second, unless it is empty. -/
theorem endOf_append {tokens : List Token} (some : tokens ≠ []) (before : List Token) :
    Token.endOf (before ++ tokens) = Token.endOf tokens := by
  unfold Token.endOf
  rw [List.getLast?_append_of_ne_nil before some]

namespace Standard

/-- A document that begins with executable definitions is read as the rest of it would be, except
    that these definitions are filed first. -/
theorem exists_enter_append {n : Nat} {tokens : List Token} {tree : Node} {arg : ConstArg}
    (h : Derives productions NoDangling n false (.call .document arg) tokens
      [(.rule .document, .node tree)] [])
    (executable : ∀ d ∈ tree.nodes .definition, d.has (.rule .executableDefinition) = true)
    {endToken : Token} (atEnd : endToken.kind = .endOfInput) (others : List Token) :
    ∃ before parts rest errors recovered ending,
      tree = .ofParts .document before false ∧
      grammar.enter .tree endToken n [] .document (arg.resolve false) [] { rest := tokens ++ others }
        = (⟨rest, #[(.rule .document, .node (.ofParts .document (before ++ parts) recovered))],
            errors⟩, ending) ∧
      grammar.enter .tree endToken n [] .document (arg.resolve false) [] { rest := others }
        = (⟨rest, #[(.rule .document, .node (.ofParts .document parts recovered))], errors⟩,
            ending) := by
  cases h with
  | @call n _ _ _ _ before _ body fits =>
    let c : Context :=
      { mode := .tree, endToken, frames := [⟨.document, []⟩], constant := arg.resolve false }
    let fresh : State := { rest := others }
    have filed : ∀ d, (.rule .definition, .node d) ∈ before →
        d.has (.rule .executableDefinition) = true := by
      intro d hd
      refine executable d ?_
      rw [Node.nodes_ofParts]
      exact List.mem_filterMap.mpr ⟨_, hd, by simp [Element.node?]⟩
    obtain ⟨taken, htokens, rounds⟩ := exists_rounds body rfl filed
    obtain rfl : tokens = taken := by simpa using htokens
    -- behind the definitions the reading goes in lockstep with one that starts there
    have skipped := rounds c { rest := tokens ++ others } others rfl rfl atEnd rfl
    obtain ⟨ahead, follow, after, plan, -⟩ := exists_plan_document
    have lockstep := iterate_behind before.toArray grammar n c ahead after .definition
      (.fixed false) follow fresh
    have read : grammar.reading n c (grammar.plans.get .document) { rest := tokens ++ others }
        = Prod.map (State.behind before.toArray) id
            (grammar.reading n c (grammar.plans.get .document) fresh) := by
      rw [skipped, plan]
      refine Eq.trans ?_ lockstep
      show c.iterate _ _ _ _ = c.iterate _ _ _ _
      simp [State.advance, State.mapParts, fresh]
    obtain ⟨rest, errors, recovered, ending, leave⟩ :=
      c.exists_leave rfl .document (grammar.reading n c (grammar.plans.get .document) fresh)
    refine ⟨before, (grammar.reading n c (grammar.plans.get .document) fresh).1.parts.toList, rest,
      errors, recovered, ending, rfl, ?_, ?_⟩
    · have left := leave before.toArray { rest := tokens ++ others } rfl
      rw [← read, Array.toList_append, List.toList_toArray] at left
      exact left
    · have left := leave #[] fresh rfl
      rw [map_behind_nothing, Array.toList_append, List.nil_append] at left
      exact left

/-- No tokens are a document of no definitions. -/
theorem parse_nothing :
    grammar.parse .document [] = ⟨some (.ofParts .document [] false), []⟩ :=
  parse_of_derives predictive_openTable (endOfInput_mem_openTable _)
    (derives_call .done (noDangling_of_none rfl))

/-- A parse of a document that begins with executable definitions is one of the rest of it, with the
    definitions before the others. -/
theorem exists_parse_append {tokens : List Token} {tree : Node}
    (clean : grammar.parse .document tokens = ⟨some tree, []⟩)
    (executable : ∀ d ∈ tree.nodes .definition, d.has (.rule .executableDefinition) = true)
    (others : List Token) :
    ∃ before parts recovered errors, tree = .ofParts .document before false ∧
      grammar.parse .document (tokens ++ others)
        = ⟨some (.ofParts .document (before ++ parts) recovered), errors⟩ ∧
      grammar.parse .document others = ⟨some (.ofParts .document parts recovered), errors⟩ := by
  have derives := exists_derivation clean
  by_cases none : others = []
  · -- nothing comes behind the definitions, and the end stands elsewhere
    subst none
    obtain ⟨before, _, _, _, _, _, rfl, -⟩ :=
      exists_enter_append derives executable (kind_endOf tokens) []
    refine ⟨before, [], false, [], rfl, ?_, parse_nothing⟩
    rwa [List.append_nil, List.append_nil]
  · obtain ⟨before, parts, rest, errors, recovered, ending, htree, read, read'⟩ :=
      exists_enter_append derives executable (kind_endOf others) others
    obtain ⟨recorded, parses⟩ := exists_recorded rest errors ending
    rw [← endOf_append none tokens] at read
    exact ⟨before, parts, recovered, recorded, htree, parses read, parses read'⟩

end Standard

/-! ### What documents are made of -/

/-- A document whose definitions are read one after the other from two others has the definitions of
    both. -/
theorem Document.ofTree_append {tree tree₁ tree₂ : Node} {d₁ d₂ : Document}
    (root : tree.rule = .document)
    (nodes : tree.nodes .definition = tree₁.nodes .definition ++ tree₂.nodes .definition)
    (h₁ : Document.ofTree tree₁ = .ok d₁) (h₂ : Document.ofTree tree₂ = .ok d₂) :
    ∃ d, Document.ofTree tree = .ok d ∧ d.definitions = d₁.definitions ++ d₂.definitions := by
  -- what a document has are its definitions, made one by one
  have made : ∀ {n : Node} {d : Document}, Document.ofTree n = .ok d →
      ∃ ds, (n.nodes .definition).mapM Definition.ofNode = .ok ds ∧
        d.definitions = ds.filterMap id := by
    intro n d h
    unfold Document.ofTree at h
    split at h
    · obtain ⟨ds, hds, h⟩ := bind_eq_ok_iff.mp h
      cases h
      rw [Node.withPresent, Node.withEach_eq] at hds
      cases all : (n.nodes .definition).mapM Definition.ofNode with
      | error e =>
        rw [all] at hds
        cases hds
      | ok found =>
        rw [all] at hds
        cases hds
        exact ⟨found, rfl, rfl⟩
    · cases h
  obtain ⟨ds₁, hds₁, same₁⟩ := made h₁
  obtain ⟨ds₂, hds₂, same₂⟩ := made h₂
  have all : (tree.nodes .definition).mapM Definition.ofNode = .ok (ds₁ ++ ds₂) := by
    rw [nodes, List.mapM_append, hds₁, hds₂]
    rfl
  refine ⟨⟨(ds₁ ++ ds₂).filterMap id, tree.span⟩, ?_, ?_⟩
  · rw [Document.ofTree, if_pos root, Document.ofNode, Node.withPresent, Node.withEach_eq, all]
    rfl
  · rw [same₁, same₂, List.filterMap_append]

/-- Definitions are read independently of executable definitions before them.  If a document without
    mistakes consists of operations and fragments, then the mistakes of a parse of its tokens and
    others behind them are those of a parse of the others; the definitions in the tree, and in the
    document made of it, are those of the one and then those of the other. -/
theorem definitions_independent {g : Grammar} (standard : Standard.grammar? = .ok g)
    {tokens : List Token} {tree₁ : Node} (clean : g.parse .document tokens = ⟨some tree₁, []⟩)
    (executable : ∀ d ∈ tree₁.nodes .definition, d.has (.rule .executableDefinition) = true)
    (others : List Token) :
    (g.parse .document (tokens ++ others)).errors = (g.parse .document others).errors ∧
      ∃ tree tree₂ : Node, (g.parse .document (tokens ++ others)).tree = some tree ∧
        (g.parse .document others).tree = some tree₂ ∧
        tree.nodes .definition = tree₁.nodes .definition ++ tree₂.nodes .definition ∧
        ∃ d d₁ d₂ : Document, Document.ofTree tree = .ok d ∧ Document.ofTree tree₁ = .ok d₁ ∧
          Document.ofTree tree₂ = .ok d₂ ∧ d.definitions = d₁.definitions ++ d₂.definitions := by
  obtain rfl : Standard.grammar = g := Except.ok.inj (Standard.grammar?_eq.symm.trans standard)
  obtain ⟨before, parts, recovered, errors, rfl, both, second⟩ :=
    Standard.exists_parse_append clean executable others
  have builds : ∀ {tokens tree errors}, Standard.grammar.parse .document tokens = ⟨some tree, errors⟩ →
      ∃ d, Document.ofTree tree = .ok d := by
    intro tokens tree errors parsed
    obtain ⟨found, hfound, root, conforms⟩ :=
      exists_conforming_tree Standard.finish_eq .document tokens
    rw [parsed] at hfound
    cases hfound
    exact Document.ofTree_succeeds ⟨root, conforms⟩
  obtain ⟨d₁, hd₁⟩ := builds clean
  obtain ⟨d₂, hd₂⟩ := builds second
  have nodes : (Node.ofParts .document (before ++ parts) recovered).nodes .definition
      = (Node.ofParts .document before false).nodes .definition
        ++ (Node.ofParts .document parts recovered).nodes .definition := by
    simp only [Node.nodes_ofParts, nodesUnder_append]
  obtain ⟨d, hd, definitions⟩ := Document.ofTree_append rfl nodes hd₁ hd₂
  rw [both, second]
  exact ⟨rfl, _, _, rfl, rfl, nodes, d, d₁, d₂, hd, hd₁, hd₂, definitions⟩

set_option maxRecDepth 100000 in
/-- A query before the beginning of another, which lacks a name and a brace. -/
theorem definitions_independent_cutOff :
    ∃ tree₁ : Node, Standard.grammar.parse .document aliasTokens = ⟨some tree₁, []⟩ ∧
      (∀ d ∈ tree₁.nodes .definition, d.has (.rule .executableDefinition) = true) ∧
      (Standard.grammar.parse .document (aliasTokens ++ aliasTokens.take 3)).errors
        = (Standard.grammar.parse .document (aliasTokens.take 3)).errors ∧
      ∃ tree tree₂ : Node,
        (Standard.grammar.parse .document (aliasTokens ++ aliasTokens.take 3)).tree = some tree ∧
        (Standard.grammar.parse .document (aliasTokens.take 3)).tree = some tree₂ ∧
        tree.nodes .definition = tree₁.nodes .definition ++ tree₂.nodes .definition ∧
        ∃ d d₁ d₂ : Document, Document.ofTree tree = .ok d ∧ Document.ofTree tree₁ = .ok d₁ ∧
          Document.ofTree tree₂ = .ok d₂ ∧ d.definitions = d₁.definitions ++ d₂.definitions := by
  obtain ⟨none, executable⟩ : (Standard.grammar.parse .document aliasTokens).errors = [] ∧
      (Standard.grammar.parse .document aliasTokens).tree.any (fun tree =>
        (tree.nodes .definition).all fun d => d.has (.rule .executableDefinition)) = true := by
    decide +kernel
  obtain ⟨tree₁, htree, executable⟩ := (Option.any_eq_true _ _).mp executable
  have clean := Grammar.Parse.eq_of_clean htree none
  have executable : ∀ d ∈ tree₁.nodes .definition, d.has (.rule .executableDefinition) = true :=
    List.all_eq_true.mp executable
  exact ⟨tree₁, clean, executable,
    definitions_independent Standard.grammar?_eq clean executable (aliasTokens.take 3)⟩

end GraphQL
