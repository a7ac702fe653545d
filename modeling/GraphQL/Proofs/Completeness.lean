/-
  Lookahead finds every derivation.

  If the table of a grammar is settled (`Productions.settled`), a reading follows each derivation of
  its tokens step by step and records nothing.  The proof is an induction on the derivation
  (`read_of_derives`), along the places that it passes (`Along`).

  A repetition that ends is left without recovery, because the token that it awaits is there: the
  one that its rule goes on with, or, in the outermost rule, the end of the input.
-/
import GraphQL.Proofs.Along

namespace GraphQL

/-! ## Steps without mistakes -/

section Steps

variable {c : Context} {s : State}

/-- A token that meets the demand is taken, and nothing is recorded. -/
theorem consume_of_meets {t : Token} {rest : List Token} {kind : TokenKind}
    (tree : c.mode = .tree) (hs : s.rest = t :: rest) (met : t.meets kind = true)
    (follow : List TokenKind) :
    c.consume kind follow s = (s.advance rest [(.token kind, .token t)], .complete) := by
  have next : c.next (t :: rest) = t := rfl
  have taken : c.take kind s = s.advance rest [(.token kind, .token t)] := by
    simp [Context.take, State.file, State.advance, tree, hs, next]
  simp only [Context.consume, hs, next, met, if_true, taken]

/-- A call that ended well files its node and records nothing. -/
theorem leave_complete (tree : c.mode = .tree) (rule : Rule) {inner : State}
    (errors : inner.errors = s.errors) :
    c.leave rule s (inner, .complete)
      = (s.advance inner.rest [(.rule rule, .node (.ofParts rule inner.parts.toList false))],
          .complete) := by
  simp [Context.leave, Context.close, State.file, State.advance, tree, errors]

/-- A round is read and the repetition goes on. -/
theorem iterate_round {ahead : Lookahead} {body : State → State × Ending} {mid : State}
    (after : AfterRepetition) (opens : c.sees ahead s.rest = true)
    (first : body s = (mid, .complete)) (shorter : mid.rest.length < s.rest.length) :
    c.iterate ahead after body s = c.iterate ahead after body mid := by
  rw [Context.iterate, dif_pos opens, first]
  simp only [shorter, if_true]

/-- A repetition is left in peace. -/
theorem iterate_leave {ahead : Lookahead} {after : AfterRepetition}
    {body : State → State × Ending} (closed : c.sees ahead s.rest = false)
    (left : c.recover ahead after s = .leave s) :
    c.iterate ahead after body s = (s, .complete) := by
  rw [Context.iterate, dif_neg (by simp [closed])]
  split
  · rename_i s' recovery
    rw [left] at recovery
    cases recovery
    rfl
  · rename_i s' recovery
    rw [left] at recovery
    cases recovery

end Steps

/-! ## Readings along derivations -/

section Reading

variable {g : Grammar} {f : FollowTable} {allowed : Rule → List Part → List Token → Prop}
  {nullable : Rule → Bool} {rank : Rule → Nat} {n : Nat} {c : Context} {rule : Rule}
  {filed : List Label} {next : List Production} {plan : Plan} {s : State}
  {parts others : List Part} {rest after : List Token} {p : Production}

/-- A row whose first part is read goes on with the others. -/
theorem read_row {first : Plan} {items : List Plan} {s' : State}
    (h : g.reading n c first s = (s', .complete)) :
    g.reading n c (.sequence (first :: items)) s = g.reading n c (.sequence items) s' := by
  rw [reading_row, h]

/-- A repetition that opens is read alike whether or not it may be empty. -/
theorem read_nonempty {ahead : Lookahead} {inner : Plan} {behind : AfterRepetition}
    (opens : c.sees ahead s.rest = true) :
    g.reading n c (.repetition true ahead inner behind) s
      = g.reading n c (.repetition false ahead inner behind) s :=
  (reading_repetition (.inr opens)).trans (reading_repetition (.inl rfl)).symm

/-- A round and the rounds behind it are read one after the other. -/
theorem read_rounds (predictive : Predictive g f allowed nullable rank) {body : Production}
    {ahead : Lookahead} {inner : Plan} {behind : AfterRepetition} {mid : List Token}
    {more : List Part}
    (h : Along g f allowed nullable n c rule filed next (.many body)
      (.repetition false ahead inner behind) s (parts ++ more) rest others after)
    (opens : c.sees ahead s.rest = true)
    (derives : Derives g.productions allowed n c.constant body s.rest parts mid)
    (first : g.reading n c inner s = (s.advance mid parts, .complete))
    (rounds : g.reading n c (.repetition false ahead inner behind) (s.advance mid parts)
      = ((s.advance mid parts).advance rest more, .complete)) :
    g.reading n c (.repetition false ahead inner behind) s
      = (s.advance rest (parts ++ more), .complete) := by
  have shorter := h.length_lt predictive derives
  have again := iterate_round behind opens first shorter
  exact again.trans (rounds.trans (by rw [advance_advance]))

/-- A rule whose body is read along a derivation is closed. -/
theorem read_call {callee : Rule} {arg : ConstArg} {follow : List TokenKind} (tree : c.mode = .tree)
    (body : g.reading n (c.inside callee arg follow) (g.plans.get callee) { s with parts := #[] }
      = (State.advance { s with parts := #[] } rest parts, .complete)) :
    g.reading (n + 1) c (.call callee arg follow) s
      = (s.advance rest [(.rule callee, .node (.ofParts callee parts false))], .complete) := by
  show (c.inside callee arg follow).leave callee s
    (g.reading n (c.inside callee arg follow) (g.plans.get callee) { s with parts := #[] }) = _
  have inside : (c.inside callee arg follow).mode = .tree := tree
  have same : (State.advance { s with parts := #[] } rest parts).errors = s.errors := rfl
  rw [body, leave_complete inside callee same, toList_parts_advance]
  rfl

/-- A reading follows each derivation of its tokens, and files the parts of the derivation.
    Induction on the derivation. -/
theorem read_of_derives (predictive : Predictive g f allowed nullable rank) {constant : Bool}
    {tokens : List Token} (derives : Derives g.productions allowed n constant p tokens parts rest)
    (flag : c.constant = constant) (start : s.rest = tokens)
    (h : Along g f allowed nullable n c rule filed next p plan s parts rest others after) :
    g.reading n c plan s = (s.advance rest parts, .complete) := by
  induction derives generalizing c rule filed next plan s others after with
  | @token n constant kind t rest met =>
    cases h.made
    exact consume_of_meets h.inside.tree start met _
  | @call n constant callee arg tokens parts rest body fits ih =>
    -- the body is read in a context of its own, in which nothing comes behind it
    subst flag start
    cases h.made
    exact read_call h.inside.tree <| ih rfl rfl <|
      .body_of_call predictive h.inside.tree h.inside.atEnd
        (fun none => absurd none h.inside.called) (h.follows_call predictive fits)
  | nil =>
    obtain ⟨_, made, rfl⟩ := Productions.plan_sequence h.made
    cases made
    rw [← start, advance_nil]
    rfl
  | @cons n constant p items tokens parts mid more rest first tail ih₁ ih₂ =>
    subst flag start
    obtain ⟨_, made, rfl⟩ := Productions.plan_sequence h.made
    obtain ⟨first', others', hfirst, hothers, rfl⟩ := Productions.planRow_cons made
    have read₁ := ih₁ rfl rfl (h.head hfirst tail)
    have read₂ := ih₂ rfl rfl (h.tail hothers first)
    rw [read_row read₁, read₂, advance_advance]
  | skip =>
    subst flag start
    obtain ⟨ahead, inner, resolved, -, rfl⟩ := Productions.plan_optional h.made
    have closed := h.not_sees_optional predictive resolved
    rw [Grammar.reading, Plan.read, closed, advance_nil]
    rfl
  | enter inside ih =>
    subst flag start
    obtain ⟨ahead, inner, resolved, made, rfl⟩ := Productions.plan_optional h.made
    have opens := h.sees_optional predictive resolved inside
    rw [Grammar.reading, Plan.read, if_pos opens]
    exact ih rfl rfl (h.body_of_optional made)
  | done =>
    subst flag start
    obtain ⟨ahead, inner, resolved, -, rfl⟩ := Productions.plan_many h.made
    rw [advance_nil]
    exact iterate_leave (h.not_sees_round predictive resolved) h.recover_eq_leave
  | again first tail ih₁ ih₂ =>
    subst flag start
    obtain ⟨ahead, inner, resolved, made, rfl⟩ := Productions.plan_many h.made
    have opens := h.sees_round predictive resolved first tail
    have read₁ := ih₁ rfl rfl (h.round made tail)
    have read₂ := ih₂ rfl rfl (h.nextRound first)
    exact read_rounds predictive h opens first read₁ read₂
  | once first tail ih₁ ih₂ =>
    subst flag start
    obtain ⟨ahead, inner, resolved, made, rfl⟩ := Productions.plan_atLeastOne h.made
    -- behind its first round it may end like any other
    have h := h.many_of_atLeastOne
    have opens := h.sees_round predictive resolved first tail
    have read₁ := ih₁ rfl rfl (h.round made tail)
    have read₂ := ih₂ rfl rfl (h.nextRound first)
    rw [read_nonempty opens]
    exact read_rounds predictive h opens first read₁ read₂
  | branch chosen opens inside ih =>
    subst flag start
    obtain ⟨_, branches, -, -, rfl⟩ := Productions.plan_choice h.made
    obtain ⟨inner, made, hread⟩ := h.exists_branch predictive chosen opens inside _
    exact hread.trans (ih rfl rfl (h.branch chosen made))

/-! ## Whole inputs -/

/-- An entry rule that takes all tokens is read to its end. -/
theorem read_entry_of_derives (predictive : Predictive g f allowed nullable rank) {entry : Rule}
    {arg : ConstArg} {tokens : List Token} (last : .endOfInput ∈ f.all entry)
    (derives : Derives g.productions allowed n false (.call entry arg) tokens parts []) :
    g.reading n (.outermost .tree tokens) (.call entry arg []) { rest := tokens }
      = (State.advance { rest := tokens } [] parts, .complete) := by
  cases derives with
  | call body fits =>
    have atEnd := kind_endOf tokens
    have ends : ((Context.outermost .tree tokens).next []).meets .endOfInput = true := by
      show (Token.endOf tokens).kind.satisfies .endOfInput = true
      rw [atEnd]
      rfl
    exact read_call rfl <| read_of_derives predictive body rfl rfl <|
      .body_of_call predictive rfl atEnd (fun _ => rfl)
        ⟨.endOfInput, predictive.sound.atEnd entry _ last, ends⟩

/-- A parse of tokens that are derived from its entry rule records nothing, and its tree is the node
    of the derivation. -/
theorem parse_of_derives (predictive : Predictive g f allowed nullable rank) {entry : Rule}
    {tokens : List Token} {tree : Node} (last : .endOfInput ∈ f.all entry)
    (derives : Derives g.productions allowed maxDepth false (.call entry (.fixed false)) tokens
      [(.rule entry, .node tree)] []) :
    g.parse entry tokens = ⟨some tree, []⟩ := by
  have read : g.enter .tree (.endOf tokens) maxDepth [] entry false [] { rest := tokens } = _ :=
    read_entry_of_derives predictive last derives
  rw [Grammar.parse, read]
  rfl

end Reading

end GraphQL
