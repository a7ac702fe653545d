/-
  A reading without mistakes is a derivation.

  A run that records nothing has not recovered from anything: each constructor of `Run` in which a
  token is put in or left out, or a rule is given up, adds to the list of mistakes, and the list
  never gets shorter (`Run.errors_extend`).  What is left are the constructors that follow the
  production, and they are those of `Derives`, one for one (`Run.derives_of_keeps`).

  Lookahead plays no part here.  A wrong lookahead could make a reading fail, but not make it accept
  what the grammar does not derive.
-/
import GraphQL.Proofs.Derivation
import GraphQL.Proofs.Run
import GraphQL.Proofs.StandardGrammar

namespace GraphQL

/-! ## Lists of mistakes that do not grow -/

namespace Extends

variable {must other : Prop} {old mid new : Array SyntaxError}

/-- Where nothing is added, nothing new was needed. -/
theorem not_must (h : Extends must old old) : ¬ must := by
  obtain ⟨more, hm, needed⟩ := h
  exact fun hmust => needed hmust (List.self_eq_append_right.mp hm)

/-- Where nothing is added in two steps, nothing is added in either. -/
theorem split (h₁ : Extends must old mid) (h₂ : Extends other mid new) (clean : new = old) :
    mid = old ∧ new = mid := by
  obtain ⟨more₁, hm, -⟩ := h₁
  obtain ⟨more₂, hn, -⟩ := h₂
  subst clean
  have nothing : more₁ ++ more₂ = [] := by
    rw [hm, List.append_assoc] at hn
    exact List.self_eq_append_right.mp hn
  obtain ⟨rfl, rfl⟩ := List.append_eq_nil_iff.mp nothing
  have same : mid = new := Array.toList_inj.mp (by simpa using hm)
  exact ⟨same, same.symm⟩

end Extends

section Clean

variable {g : Grammar} {n : Nat} {c : Context} {plan : Plan} {s s' : State} {ending : Ending}

/-- A run that records nothing ends as it should. -/
theorem Run.complete_of_clean (h : Run g n c plan s s' ending) (clean : s'.errors = s.errors) :
    ending = .complete := by
  have extend := h.errors_extend
  rw [clean] at extend
  exact Decidable.not_not.mp extend.not_must

/-- A state to which a mistake was added is not the old one. -/
theorem errors_ne_of_append {e : SyntaxError} (h : s'.errors.toList = s.errors.toList ++ [e]) :
    s'.errors ≠ s.errors := by
  intro clean
  rw [clean] at h
  cases List.self_eq_append_right.mp h

/-! ## The derivation of a clean run -/

/-- A round of a repetition before the others. -/
theorem Derives.round {p : Productions} {allowed : Rule → List Part → List Token → Prop}
    {constant : Bool} {ahead : Lookahead} {body : Plan} {after : AfterRepetition}
    {tokens mid rest : List Token} {parts more : List Part} (nonempty : Bool)
    (first : Derives p allowed n constant body.production tokens parts mid)
    (others : Derives p allowed n constant (.many body.production) mid more rest) :
    Derives p allowed n constant (Plan.repetition nonempty ahead body after).production tokens
      (parts ++ more) rest := by
  cases nonempty with
  | false => exact .again first others
  | true => exact .once first others

/-- Whether the rules of a grammar end, in parses of one mode, only where they are allowed to. -/
def Grammar.Keeps (g : Grammar) (mode : Mode) (allowed : Rule → List Part → List Token → Prop) :
    Prop :=
  ∀ {n : Nat} {c : Context} {rule : Rule} {s s' : State} {parts : List Part}, c.mode = mode →
    Run g n c (g.plans.get rule) s s' .complete → s.parts = #[] →
      s'.parts.toList = mode.kept parts → allowed rule parts s'.rest

/-- A run that records nothing derives the tokens that it uses up, and files the parts of the
    derivation; if rules end only where they are allowed to, so they do in the derivation.
    Induction on the run; where two runs follow each other, both record nothing. -/
theorem Run.derives_of_keeps {allowed : Rule → List Part → List Token → Prop} {mode : Mode}
    (keeps : g.Keeps mode allowed)
    (made : ∀ r, (g.plans.get r).production = g.productions.get r)
    (reserved : g.productions.NeverExpects .endOfInput)
    (h : Run g n c plan s s' ending) (inMode : c.mode = mode) (clean : s'.errors = s.errors)
    (atEnd : c.endToken.kind = .endOfInput) (noEnd : .endOfInput ∉ plan.production.demands) :
    ∃ parts, Derives g.productions allowed n c.constant plan.production s.rest parts s'.rest ∧
      s'.parts.toList = s.parts.toList ++ c.mode.kept parts := by
  induction h with
  | @take n c kind follow s met =>
    obtain ⟨t, rest, hrest, met⟩ := exists_cons_of_meets atEnd noEnd met
    refine ⟨[(.token kind, .token t)], ?_, by simp [Context.next, hrest]⟩
    rw [Plan.production, rest_take, hrest]
    exact .token met
  -- where the run leaves the production, it records a mistake
  | insert => exact absurd clean (errors_ne_of_append (by rw [errors_file, errors_recordMismatch]))
  | @delete _ c _ _ s =>
    have added := errors_recordMismatch c s
    exact absurd clean (errors_ne_of_append (by rw [errors_take]; exact added _))
  | miss => exact absurd clean (errors_ne_of_append (errors_recordMismatch ..))
  | tooDeep => exact absurd clean (errors_ne_of_append (errors_record ..))
  | noRound => exact absurd clean (errors_ne_of_append (errors_record ..))
  | noBranch => exact absurd clean (errors_ne_of_append (errors_record ..))
  | @close n c rule arg follow s inner body ih =>
    rw [errors_close] at clean
    obtain ⟨parts, derives, hparts⟩ := ih inMode clean atEnd (made rule ▸ reserved rule)
    rw [made] at derives
    have filed : inner.parts.toList = mode.kept parts := inMode ▸ hparts
    refine ⟨[(.rule rule, .node (.ofParts rule parts false))], ?_, ?_⟩
    · rw [rest_close]
      exact .call derives (keeps (c := c.inside rule arg follow) inMode body rfl filed)
    · rw [parts_close, Mode.kept_ofParts hparts]
      rfl
  | resync body => cases body.complete_of_clean (by simpa using clean)
  | unwind body => cases body.complete_of_clean (by simpa using clean)
  | abort body => cases body.complete_of_clean (by simpa using clean)
  | nil => exact ⟨[], .nil, by simp⟩
  | @cons n c p rest s mid s' ending first others ih₁ ih₂ =>
    obtain ⟨clean₁, clean₂⟩ := first.errors_extend.split others.errors_extend clean
    rw [Plan.demands_cons, List.mem_append, not_or] at noEnd
    obtain ⟨parts, derives, hparts⟩ := ih₁ inMode clean₁ atEnd noEnd.1
    obtain ⟨more, derivesMore, hmore⟩ := ih₂ inMode clean₂ atEnd noEnd.2
    exact ⟨_, .cons derives derivesMore, by simp [hmore, hparts]⟩
  | cut first cuts => exact absurd (first.complete_of_clean clean) cuts
  | skip => exact ⟨[], .skip, by simp⟩
  | enter _ _ ih =>
    obtain ⟨parts, derives, hparts⟩ := ih inMode clean atEnd noEnd
    exact ⟨parts, .enter derives, hparts⟩
  | @round n c nonempty ahead body after s mid s' ending _ first _ others ih₁ ih₂ =>
    obtain ⟨clean₁, clean₂⟩ := first.errors_extend.split others.errors_extend clean
    rw [Plan.demands_repetition] at noEnd
    obtain ⟨parts, derives, hparts⟩ := ih₁ inMode clean₁ atEnd noEnd
    obtain ⟨more, derivesMore, hmore⟩ := ih₂ inMode clean₂ atEnd noEnd
    exact ⟨_, .round nonempty derives derivesMore, by simp [hmore, hparts]⟩
  | @idle n c nonempty ahead body after s s' _ _ _ ih =>
    rw [Plan.demands_repetition] at noEnd
    obtain ⟨parts, derives, hparts⟩ := ih inMode clean atEnd noEnd
    exact ⟨_, .round nonempty derives .done, by simp [hparts]⟩
  | broken _ first breaks => exact absurd (first.complete_of_clean clean) breaks
  | leave _ recovery =>
    -- a repetition that is left records nothing only if it skips nothing
    obtain h | ⟨expected, skipped, rest, -, h | h⟩ := recover_cases recovery
    · cases h
      exact ⟨[], .done, by simp⟩
    · cases h
      obtain ⟨fault, -, hf⟩ := errors_recordUnexpected _ _ _ _
      exact absurd clean (errors_ne_of_append hf)
    · cases h
  | @resume _ c _ _ _ s mid _ _ _ recovery others =>
    obtain h | ⟨expected, skipped, rest, -, h | h⟩ := recover_cases recovery
    · cases h
    · cases h
    · cases h
      obtain ⟨fault, -, hf⟩ := errors_recordUnexpected c { s with rest } expected (c.next s.rest)
      have added : Extends True s.errors _ := .one hf
      exact absurd (added.split others.errors_extend clean).1 (errors_ne_of_append hf)
  | @branch n c branches gate ahead body s s' ending chosen allowed _ _ ih =>
    obtain ⟨parts, derives, hparts⟩ := ih inMode clean atEnd fun h => noEnd (Plan.demands_branch chosen h)
    exact ⟨parts, .branch (Plan.mem_alternativesOf chosen) allowed derives, hparts⟩

end Clean

/-! ## Whole inputs -/

/-- A parse without mistakes is a derivation of all tokens from the entry rule, in which rules end
    only where they are allowed to; the tree, if one is made, is the node of the derivation. -/
theorem derivation_of_clean {d : Draft} {g : Grammar} (finished : d.finish = .ok g)
    (reserved : g.productions.NeverExpects .endOfInput) {mode : Mode}
    {allowed : Rule → List Part → List Token → Prop} (keeps : g.Keeps mode allowed) (entry : Rule)
    (tokens : List Token) (clean : (g.parse entry tokens mode).errors = []) :
    ∃ tree : Node,
      Derives g.productions allowed maxDepth false (.call entry (.fixed false)) tokens
        [(.rule entry, .node tree)] [] ∧
      (mode = .tree → (g.parse entry tokens mode).tree = some tree) := by
  obtain ⟨s, ending, run, htree, hend⟩ := parse_cases g entry tokens mode
  rcases hend with ⟨found, rest, -, -, herrors⟩ | ⟨hrest, herrors⟩
  · -- a redundant token would be a mistake
    rw [clean] at herrors
    cases (List.append_eq_nil_iff.mp herrors.symm).2
  have none : s.errors = #[] := Array.toList_inj.mp (herrors.symm.trans clean)
  have allRead : s.rest = [] := hrest (run.complete_of_clean none)
  obtain ⟨parts, derives, hparts⟩ := run.derives_of_keeps keeps (production_of_finish finished)
    reserved rfl none (kind_endOf tokens) (by simp [Plan.production, Production.demands])
  rw [allRead] at derives
  -- the entry rule was called once, so there is one part, its node
  obtain ⟨inner, rfl⟩ : ∃ inner, parts = [(.rule entry, .node (.ofParts entry inner false))] := by
    cases derives
    exact ⟨_, rfl⟩
  refine ⟨_, derives, ?_⟩
  rintro rfl
  exact htree.trans (treeOf_eq_some hparts)

/-- What a parse without mistakes gives is its tree. -/
theorem Grammar.Parse.eq_of_clean {p : Grammar.Parse} {tree : Node} (htree : p.tree = some tree)
    (clean : p.errors = []) : p = ⟨some tree, []⟩ := by
  rw [← htree, ← clean]

/-- A parse without mistakes is a derivation of all tokens from the entry rule, and the tree is the
    node of that derivation.  It holds every token of the input and no other, and nothing in it was
    broken off. -/
theorem parse_sound {d : Draft} {g : Grammar} (finished : d.finish = .ok g)
    (reserved : g.productions.NeverExpects .endOfInput) (entry : Rule) (tokens : List Token)
    (mode : Mode) (clean : (g.parse entry tokens mode).errors = []) :
    ∃ tree : Node,
      Derives g.productions anywhere maxDepth false (.call entry (.fixed false)) tokens
        [(.rule entry, .node tree)] [] ∧
      (mode = .tree → (g.parse entry tokens mode).tree = some tree) ∧
      tree.leaves.Perm tokens ∧
      (∀ m : Node, m.Within tree → m.recovered = false) ∧
      ((∀ t ∈ tokens, t.inserted = false) → ∀ t ∈ tree.leaves, t.inserted = false) := by
  have keeps : g.Keeps mode anywhere := fun _ _ _ _ => trivial
  obtain ⟨tree, derives, htree⟩ := derivation_of_clean finished reserved keeps entry tokens clean
  obtain ⟨taken, htaken, perm⟩ := derives.exists_taken
  rw [leavesOfParts_node] at perm
  obtain rfl : tokens = taken := by simpa using htaken
  refine ⟨tree, derives, htree, perm, ?_, ?_⟩
  · -- no node of the tree was recovered
    exact fun m within => derives.recovered_eq_false (List.mem_singleton_self _) within
  · -- each leaf is one of the tokens
    exact fun kept t ht => kept t (perm.mem_iff.mp ht)

/-- The tokens of a selection of one field under another name. -/
def aliasTokens : List Token :=
  [{ kind := .punctuator .leftBrace, text := "\x7b" }, { kind := .identifier, text := "a" },
   { kind := .punctuator .colon, text := ":" }, { kind := .keyword (.word .on), text := "on" },
   { kind := .punctuator .rightBrace, text := "\x7d" }]

set_option maxRecDepth 100000 in
/-- A selection whose field has the name of a keyword. -/
theorem parse_sound_alias :
    (Standard.grammar.parse .document aliasTokens).errors = [] ∧
      ∃ tree : Node,
        Derives Standard.productions anywhere maxDepth false (.call .document (.fixed false))
          aliasTokens [(.rule .document, .node tree)] [] ∧
        (Standard.grammar.parse .document aliasTokens).tree = some tree ∧
        tree.leaves.Perm aliasTokens ∧
        (∀ m : Node, m.Within tree → m.recovered = false) ∧
        ∀ t ∈ tree.leaves, t.inserted = false := by
  have clean : (Standard.grammar.parse .document aliasTokens).errors = [] := by decide +kernel
  obtain ⟨tree, derives, htree, perm, whole, shown⟩ :=
    parse_sound Standard.finish_eq Standard.reserved .document aliasTokens .tree clean
  exact ⟨clean, tree, derives, htree rfl, perm, whole, shown (by decide)⟩

end GraphQL
