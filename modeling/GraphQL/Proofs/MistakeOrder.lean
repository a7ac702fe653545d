/-
  Mistakes stand in the order of the text.

  A mistake is recorded at the first token that is left, or at the end of the input where none is.
  A reading never puts a token back, so the next mistake stands at that token again or further on.
  One step seems to break the rule: a repetition that looks for its next round moves on first and
  records afterwards.  But it records the token where it stopped, before it moved, and that is still
  at or behind the place of every earlier mistake; what comes later is recorded where it moved to or
  further on.  `Marks` is the relation that carries this: a list of mistakes, each at a place that
  is reached from the one before it by leaving tokens out.

  The rules that a mistake names are the active ones, outermost first.  A rule becomes active when
  the innermost active rule calls it, so they are a path of calls from the entry rule (`CallPath`),
  and each uses up one of the levels to which rules may nest.  Only the mistake of a text that goes
  on behind the entry rule names no rule.
-/
import GraphQL.Proofs.FirstMistake
import GraphQL.Proofs.TokenAccounting
import Mathlib.Data.List.Chain

namespace GraphQL

/-! ## Places of mistakes -/

namespace SyntaxError

/-- Whether a mistake stands at the end of the input: it shows no text, has no width, and stands
    where the last token ends. -/
structure AtEnd (e : SyntaxError) (tokens : List Token) : Prop where
  shown : e.fault.found = ""
  width : e.span.stop = e.span.start
  place : e.span.start = (tokens.getLast?.map fun last => last.span.stop).getD {}

/-- Whether a mistake points at the token in a place, or at the end of the input behind them all. -/
def PointsAt (e : SyntaxError) (tokens : List Token) (i : Nat) : Prop :=
  (∃ t, tokens[i]? = some t ∧ e.At t) ∨ (i = tokens.length ∧ e.AtEnd tokens)

/-- A mistake at what stands behind the last token is one at the end of the input. -/
theorem At.atEnd {e : SyntaxError} {tokens : List Token} (h : e.At (.endOf tokens)) :
    e.AtEnd tokens := by
  obtain ⟨place, shown⟩ := h
  unfold Token.endOf at place shown
  cases last : tokens.getLast? with
  | none =>
    rw [last] at place shown
    exact ⟨shown, by rw [place], by rw [place, last]; rfl⟩
  | some t =>
    rw [last] at place shown
    exact ⟨shown, by rw [place]; rfl, by rw [place, last]; rfl⟩

/-- A mistake at the first token that is left points at its place. -/
theorem At.pointsAt {e : SyntaxError} {before after : List Token}
    (h : e.At (after.headD (.endOf (before ++ after)))) :
    e.PointsAt (before ++ after) before.length := by
  cases after with
  | nil =>
    rw [List.append_nil] at h ⊢
    exact .inr ⟨rfl, h.atEnd⟩
  | cons t after =>
    refine .inl ⟨t, ?_, h⟩
    rw [List.getElem?_append_right (Nat.le_refl _), Nat.sub_self]
    rfl

end SyntaxError

/-- Where tokens stand in order, so do the tokens and the end behind them. -/
theorem pairwise_withEnd {tokens : List Token} (ordered : tokens.Pairwise Token.Before)
    (forward : ∀ t ∈ tokens, t.span.start.offset ≤ t.span.stop.offset) :
    (Token.withEnd tokens).Pairwise fun a b => a.span.start.offset ≤ b.span.start.offset := by
  rcases List.eq_nil_or_concat tokens with rfl | ⟨init, last, split⟩
  · exact List.pairwise_singleton _ _
  · rw [List.concat_eq_append] at split
    subst split
    -- the end stands where the last token ends, and each token begins before that
    have ends : (Token.endOf (init ++ [last])).span.start = last.span.stop := by
      unfold Token.endOf
      rw [List.getLast?_concat]
      rfl
    have inside := forward last (List.mem_append_right _ (List.mem_singleton_self _))
    obtain ⟨-, -, before⟩ := List.pairwise_append.mp ordered
    refine List.pairwise_append.mpr ⟨ordered.imp Nat.le_of_lt, List.pairwise_singleton _ _, ?_⟩
    intro t ht e he
    obtain rfl := List.mem_singleton.mp he
    rw [ends]
    rcases List.mem_append.mp ht with ht | ht
    · have earlier : t.span.start.offset < last.span.start.offset :=
        before t ht last (List.mem_singleton_self _)
      omega
    · obtain rfl := List.mem_singleton.mp ht
      exact inside

/-- A mistake that points at a place begins where the token does that stands there. -/
theorem SyntaxError.PointsAt.start_eq {e : SyntaxError} {tokens : List Token} {i : Nat}
    (h : e.PointsAt tokens i) :
    ∃ t, (Token.withEnd tokens)[i]? = some t ∧ e.span.start = t.span.start := by
  rcases h with ⟨t, ht, place, -⟩ | ⟨rfl, atEnd⟩
  · obtain ⟨hi, -⟩ := List.getElem?_eq_some_iff.mp ht
    refine ⟨t, ?_, by rw [place]⟩
    rw [Token.withEnd, List.getElem?_append_left hi, ht]
  · refine ⟨.endOf tokens, ?_, ?_⟩
    · rw [Token.withEnd, List.getElem?_append_right (Nat.le_refl _), Nat.sub_self]
      rfl
    · rw [atEnd.place]
      unfold Token.endOf
      cases tokens.getLast? <;> rfl

/-! ## Mistakes one after the other -/

/-- Mistakes that are recorded on the way from some tokens that are left to others: each at the
    first of the tokens that were left then, and never after tokens were put back. -/
inductive Marks (endToken : Token) : List Token → List SyntaxError → List Token → Prop where
  | nil {rest rest' : List Token} (further : rest' <:+ rest) : Marks endToken rest [] rest'
  | cons {rest mid rest' : List Token} {e : SyntaxError} {more : List SyntaxError}
      (further : mid <:+ rest) (found : e.At (mid.headD endToken))
      (others : Marks endToken mid more rest') : Marks endToken rest (e :: more) rest'

namespace Marks

variable {endToken : Token} {rest mid rest' : List Token} {errors more : List SyntaxError}

/-- Mistakes that are marked in a rest are marked in all that the rest ends. -/
theorem before (further : mid <:+ rest) (h : Marks endToken mid more rest') :
    Marks endToken rest more rest' := by
  cases h with
  | nil further' => exact .nil (further'.trans further)
  | cons further' found others => exact .cons (further'.trans further) found others

/-- Mistakes that are recorded one after the other are marked in the order of their tokens. -/
theorem append (h : Marks endToken rest errors mid) (h' : Marks endToken mid more rest') :
    Marks endToken rest (errors ++ more) rest' := by
  induction h with
  | nil further => exact h'.before further
  | cons further found _ ih => exact .cons further found (ih h')

/-- The places of mistakes that are recorded one after the other never decrease. -/
theorem exists_indices (before : List Token)
    (h : Marks (.endOf (before ++ rest)) rest errors rest') :
    ∃ indices : List Nat,
      List.Forall₂ (fun e i => e.PointsAt (before ++ rest) i) errors indices ∧
        indices.Pairwise (· ≤ ·) ∧ ∀ i ∈ indices, before.length ≤ i := by
  generalize hend : Token.endOf (before ++ rest) = endToken at h
  -- the tokens that were left when a mistake was recorded are behind all that was left before
  induction h generalizing before with
  | nil => exact ⟨[], .nil, .nil, fun _ => nofun⟩
  | @cons rest mid rest' e more further found others ih =>
    obtain ⟨skipped, rfl⟩ := further
    rw [← List.append_assoc] at hend ⊢
    obtain ⟨indices, points, ordered, bound⟩ := ih _ hend
    have place : e.PointsAt (before ++ skipped ++ mid) (before ++ skipped).length := by
      rw [← hend] at found
      exact found.pointsAt
    refine ⟨_ :: indices, .cons place points, .cons bound ordered, fun i hi => ?_⟩
    have least : before.length ≤ (before ++ skipped).length := by
      rw [List.length_append]
      omega
    rcases List.mem_cons.mp hi with rfl | hi
    · exact least
    · exact Nat.le_trans least (bound i hi)

end Marks

/-- Where tokens stand in order, so do mistakes whose places never decrease. -/
theorem pairwise_of_pointsAt {tokens : List Token} {errors : List SyntaxError} {indices : List Nat}
    (places : (Token.withEnd tokens).Pairwise fun a b =>
      a.span.start.offset ≤ b.span.start.offset)
    (points : List.Forall₂ (fun e i => e.PointsAt tokens i) errors indices)
    (ordered : indices.Pairwise (· ≤ ·)) :
    errors.Pairwise fun a b => a.span.start.offset ≤ b.span.start.offset := by
  have count := points.length_eq
  refine List.pairwise_iff_getElem.mpr fun k l hk hl lt => ?_
  obtain ⟨t, ht, start⟩ := (points.get hk (by omega)).start_eq
  obtain ⟨u, hu, start'⟩ := (points.get hl (by omega)).start_eq
  simp only [List.get_eq_getElem] at ht hu start start'
  obtain ⟨hi, rfl⟩ := List.getElem?_eq_some_iff.mp ht
  obtain ⟨hj, rfl⟩ := List.getElem?_eq_some_iff.mp hu
  rw [start, start']
  have le := List.pairwise_iff_getElem.mp ordered k l (by omega) (by omega) lt
  -- two mistakes at different tokens, or at the same one
  rcases Nat.lt_or_eq_of_le le with lt | same
  · exact List.pairwise_iff_getElem.mp places _ _ hi hj lt
  · simp only [same, Nat.le_refl]

/-! ## Paths of calls -/

/-- The rules that are being read, outermost first. -/
def Context.stack (c : Context) : List Rule := (c.frames.map Frame.rule).reverse

theorem Context.stack_inside (c : Context) (rule : Rule) (arg : ConstArg)
    (follow : List TokenKind) : (c.inside rule arg follow).stack = c.stack ++ [rule] :=
  List.reverse_cons

/-- Rules of which the first is the entry rule and each calls the next. -/
structure CallPath (g : Productions) (entry : Rule) (rules : List Rule) : Prop where
  entered : rules.head? = some entry
  chained : rules.IsChain fun r q => q ∈ (g.get r).calls

namespace CallPath

variable {g : Productions} {entry : Rule}

theorem single : CallPath g entry [entry] := ⟨rfl, .singleton _⟩

/-- A path of calls goes on with each rule that its last rule calls. -/
theorem snoc {rules : List Rule} {r q : Rule} (h : CallPath g entry (rules ++ [r]))
    (called : q ∈ (g.get r).calls) : CallPath g entry (rules ++ [r] ++ [q]) where
  entered := by
    rw [List.head?_append, h.entered]
    rfl
  chained := by
    refine h.chained.append (.singleton q) fun x hx y hy => ?_
    rw [List.getLast?_concat] at hx
    cases hx
    cases hy
    exact called

end CallPath

namespace Plan

/-- The calls of a row are those of its first plan and of the others. -/
theorem calls_cons (p : Plan) (rest : List Plan) :
    (Plan.sequence (p :: rest)).production.calls
      = p.production.calls ++ (Plan.sequence rest).production.calls := rfl

/-- Whether or not it may be empty, a repetition has the calls of its body. -/
theorem calls_repetition (nonempty : Bool) (ahead : Lookahead) (body : Plan)
    (after : AfterRepetition) :
    (Plan.repetition nonempty ahead body after).production.calls = body.production.calls := by
  cases nonempty <;> rfl

/-- A branch has no other calls than its choice. -/
theorem calls_branch {gate : Gate} {ahead : Lookahead} {p : Plan}
    {branches : List (Gate × Lookahead × Plan)} (h : (gate, ahead, p) ∈ branches) :
    p.production.calls ⊆ (Plan.choice branches).production.calls :=
  Production.calls_subset_of_mem (mem_alternativesOf h)

end Plan

/-! ## What a run records -/

/-- Whether a context is one in which a rule is read: the active rules are a path of calls, and they
    have used up all levels but those that are left. -/
structure Context.Active (c : Context) (g : Productions) (entry : Rule) (levels : Nat) : Prop where
  path : CallPath g entry c.stack
  depth : levels + c.frames.length = maxDepth

/-- Where a rule is called, it becomes active. -/
theorem Context.active_inside {c : Context} {g : Productions} {entry rule : Rule} {levels : Nat}
    (arg : ConstArg) (follow : List TokenKind) (depth : levels + 1 + c.frames.length = maxDepth)
    (called : CallPath g entry (c.stack ++ [rule])) :
    (c.inside rule arg follow).Active g entry levels where
  path := by
    rw [stack_inside]
    exact called
  depth := by
    have frames : (c.inside rule arg follow).frames.length = c.frames.length + 1 := rfl
    rw [frames]
    omega

/-- From one state to another mistakes are recorded one after the other, each with a path of calls
    that is not too long. -/
def Records (g : Productions) (entry : Rule) (endToken : Token) (s s' : State) : Prop :=
  ∃ more, s'.errors.toList = s.errors.toList ++ more ∧ Marks endToken s.rest more s'.rest ∧
    ∀ e ∈ more, CallPath g entry e.stack ∧ e.stack.length ≤ maxDepth

namespace Records

variable {g : Productions} {entry : Rule} {endToken : Token} {s mid s' : State}

/-- Nothing is recorded, and no token is put back. -/
theorem nothing (same : s'.errors.toList = s.errors.toList) (further : s'.rest <:+ s.rest) :
    Records g entry endToken s s' :=
  ⟨[], by rw [same, List.append_nil], .nil further, fun _ => nofun⟩

/-- Two stretches of a parse record mistakes in order if each does. -/
theorem trans (h : Records g entry endToken s mid) (h' : Records g entry endToken mid s') :
    Records g entry endToken s s' := by
  obtain ⟨first, added, marks, paths⟩ := h
  obtain ⟨second, added', marks', paths'⟩ := h'
  refine ⟨first ++ second, ?_, marks.append marks', fun e he => ?_⟩
  · rw [added', added, List.append_assoc]
  · rcases List.mem_append.mp he with he | he
    · exact paths e he
    · exact paths' e he

/-- One mistake is recorded at the next token. -/
theorem one {c : Context} {levels : Nat} (active : c.Active g entry levels) {fault : Fault}
    (shown : fault.found = (c.next s.rest).text)
    (added : s'.errors.toList = s.errors.toList ++ [⟨fault, (c.next s.rest).span, c.stack⟩])
    (further : s'.rest <:+ s.rest) : Records g entry c.endToken s s' := by
  have found : SyntaxError.At ⟨fault, (c.next s.rest).span, c.stack⟩ (c.next s.rest) := ⟨rfl, shown⟩
  refine ⟨_, added, .cons List.suffix_rfl found (.nil further), fun e he => ?_⟩
  obtain rfl := List.mem_singleton.mp he
  refine ⟨active.path, ?_⟩
  show c.stack.length ≤ maxDepth
  rw [Context.stack, List.length_reverse, List.length_map, ← active.depth]
  omega

/-- However a rule is left, what its body has recorded is recorded. -/
theorem close {inner : State} (h : Records g entry endToken { s with parts := #[] } inner)
    (errors : s'.errors = inner.errors) (further : s'.rest <:+ inner.rest) :
    Records g entry endToken s s' := by
  have body : Records g entry endToken s inner := h
  exact body.trans (.nothing (by rw [errors]) further)

/-- A repetition that goes on after a mistake records the token where it stopped. -/
theorem recover {c : Context} {levels : Nat} (active : c.Active g entry levels) {ahead : Lookahead}
    {after : AfterRepetition} {r : Context.Recovery} (h : c.recover ahead after s = r) :
    Records g entry c.endToken s r.state := by
  obtain rfl | ⟨expected, skipped, rest, hs, h⟩ := recover_cases h
  · exact nothing rfl List.suffix_rfl
  · obtain ⟨fault, shown, added⟩ :=
      errors_recordUnexpected c { s with rest } expected (c.next s.rest)
    have further : (c.recordUnexpected expected (c.next s.rest) { s with rest }).rest <:+ s.rest := by
      rw [Context.rest_recordUnexpected, hs]
      exact List.suffix_append skipped rest
    obtain rfl | rfl := h <;> exact one active shown added further

end Records

section Runs

variable {g : Grammar} {n : Nat} {c : Context} {plan : Plan} {s s' : State} {ending : Ending}

/-- A run records its mistakes one after the other, each with the path of calls to the rule that is
    being read then.  Induction on the run; a rule that is called becomes the last of the path. -/
theorem Run.records (made : ∀ r, (g.plans.get r).production = g.productions.get r) {entry : Rule}
    (h : Run g n c plan s s' ending) (active : c.Active g.productions entry n)
    (called : ∀ q ∈ plan.production.calls, CallPath g.productions entry (c.stack ++ [q])) :
    Records g.productions entry c.endToken s s' := by
  -- the rule of a call is called by the one around it, so the stack stays a path of calls
  have bodies : ∀ {m c rule arg follow}, Context.Active c g.productions entry (m + 1) →
      CallPath g.productions entry (c.stack ++ [rule]) →
      (c.inside rule arg follow).Active g.productions entry m ∧
        ∀ q ∈ (g.plans.get rule).production.calls,
          CallPath g.productions entry ((c.inside rule arg follow).stack ++ [q]) := by
    intro m c rule arg follow active path
    refine ⟨Context.active_inside arg follow active.depth path, fun q hq => ?_⟩
    rw [Context.stack_inside]
    exact path.snoc (made rule ▸ hq)
  -- by induction on the run: each step records nothing, or one mistake at the next token
  induction h with
  | take => exact .nothing (by rw [errors_take]) (by rw [rest_take]; exact List.tail_suffix _)
  | nil => exact .nothing rfl List.suffix_rfl
  | skip => exact .nothing rfl List.suffix_rfl
  | @insert _ c kind _ s =>
    have shown : (Fault.mismatch kind (c.next s.rest).text).found = (c.next s.rest).text := rfl
    refine .one active shown ?_ ?_
    · rw [errors_file]
      exact errors_recordMismatch c s kind
    · rw [rest_file]
      exact List.suffix_rfl
  | @delete _ c kind _ s =>
    have shown : (Fault.mismatch kind (c.next s.rest).text).found = (c.next s.rest).text := rfl
    refine .one active shown ?_ ?_
    · rw [errors_take]
      exact errors_recordMismatch c s kind
    · rw [rest_take]
      exact (List.tail_suffix _).trans (List.tail_suffix _)
  | miss => exact .one active rfl (errors_recordMismatch ..) List.suffix_rfl
  | tooDeep => exact .one active rfl (errors_record ..) List.suffix_rfl
  | noRound => exact .one active rfl (errors_record ..) List.suffix_rfl
  | noBranch => exact .one active rfl (errors_record ..) List.suffix_rfl
  | close _ ih | unwind _ _ ih | abort _ ih =>
    obtain ⟨inside, calls⟩ := bodies active (called _ (List.mem_singleton_self _))
    exact (ih inside calls).close (errors_close ..) (by simp)
  | @resync _ c rule arg follow _ inner _ _ ih =>
    -- a call that was stuck drops tokens up to the place where it resumes
    obtain ⟨inside, calls⟩ := bodies active (called rule (List.mem_singleton_self _))
    obtain ⟨dropped, hdropped⟩ := (c.inside rule arg follow).exists_append_resyncPoint inner.rest
    refine (ih inside calls).close (errors_close ..) ?_
    rw [rest_close]
    exact ⟨dropped, hdropped.symm⟩
  | cons _ _ ih₁ ih₂ =>
    -- the mistakes of the first item stand before those of the others
    rw [Plan.calls_cons] at called
    have first := ih₁ active fun q hq => called q (List.mem_append_left _ hq)
    have others := ih₂ active fun q hq => called q (List.mem_append_right _ hq)
    exact first.trans others
  | cut _ _ ih =>
    rw [Plan.calls_cons] at called
    exact ih active fun q hq => called q (List.mem_append_left _ hq)
  | enter _ _ ih => exact ih active called
  | round _ _ _ _ ih₁ ih₂ =>
    rw [Plan.calls_repetition] at called
    exact (ih₁ active called).trans (ih₂ active called)
  | idle _ _ _ ih | broken _ _ _ ih =>
    rw [Plan.calls_repetition] at called
    exact ih active called
  | leave _ recovery => exact .recover active recovery
  | resume _ recovery _ ih => exact (Records.recover active recovery).trans (ih active called)
  | branch chosen _ _ _ ih => exact ih active fun q hq => called q (Plan.calls_branch chosen hq)

/-- A rule that is entered records what its body does, however it is left. -/
theorem Run.exists_body {rule : Rule} {arg : ConstArg} {follow : List TokenKind}
    (h : Run g (n + 1) c (.call rule arg follow) s s' ending) :
    ∃ inner ends, Run g n (c.inside rule arg follow) (g.plans.get rule) { s with parts := #[] }
        inner ends ∧ s'.errors = inner.errors ∧ s'.rest <:+ inner.rest := by
  cases h with
  | close body | unwind body _ | abort body =>
    exact ⟨_, _, body, errors_close .., by simp⟩
  | @resync _ _ _ _ _ _ inner body _ =>
    obtain ⟨dropped, hdropped⟩ := (c.inside rule arg follow).exists_append_resyncPoint inner.rest
    refine ⟨_, _, body, errors_close .., ?_⟩
    rw [rest_close]
    exact ⟨dropped, hdropped.symm⟩

/-- The outermost run has no active rule around it; it records what the body of its rule does. -/
theorem Run.records_outermost (made : ∀ r, (g.plans.get r).production = g.productions.get r)
    {mode : Mode} {tokens : List Token} {entry : Rule}
    (h : Run g maxDepth (.outermost mode tokens) (.call entry (.fixed false) []) s s' ending) :
    Records g.productions entry (.endOf tokens) s s' := by
  obtain ⟨inner, ends, body, errors, further⟩ := h.exists_body
  let c := (Context.outermost mode tokens).inside entry (.fixed false) []
  have active : c.Active g.productions entry (maxDepth - 1) :=
    Context.active_inside _ _ rfl .single
  have called : ∀ q ∈ (g.plans.get entry).production.calls,
      CallPath g.productions entry (c.stack ++ [q]) := by
    intro q hq
    have path : CallPath g.productions entry ([] ++ [entry]) := .single
    exact path.snoc (made entry ▸ hq)
  exact (body.records made active called).close errors further

end Runs

/-! ## Whole inputs -/

/-- Mistakes are anchored in the input and stand in its order.  Each points at a token or at the end
    of the input, and the places of successive mistakes never decrease; so those of a text never
    step back in it.  The rules that a mistake names nest no deeper than the limit and are a path of
    calls from the entry rule.  Only the mistake of what is left behind the entry rule names
    none. -/
theorem mistakes_anchored {d : Draft} {g : Grammar} (finished : d.finish = .ok g) (entry : Rule)
    (tokens : List Token) (mode : Mode) :
    (∃ indices : List Nat,
      List.Forall₂ (fun e i => e.PointsAt tokens i) (g.parse entry tokens mode).errors indices ∧
        indices.Pairwise (· ≤ ·)) ∧
    (∀ e ∈ (g.parse entry tokens mode).errors, e.stack.length ≤ maxDepth ∧
      (e.stack ≠ [] → CallPath g.productions entry e.stack) ∧
      (e.stack = [] → ∃ s found rest,
        g.enter mode (.endOf tokens) maxDepth [] entry false [] { rest := tokens }
            = (s, .complete) ∧
          s.rest = found :: rest ∧ e = ⟨.redundantInput found.text, found.span, []⟩ ∧
          (g.parse entry tokens mode).errors = s.errors.toList ++ [e])) ∧
    ∀ source file, tokens = (Scan.ofSource source file).tokens →
      (g.parse entry tokens mode).errors.Pairwise fun a b =>
        a.span.start.offset ≤ b.span.start.offset := by
  obtain ⟨s, ending, entered, -, hend⟩ := parse_enter g entry tokens mode
  obtain ⟨more, added, marks, paths⟩ :=
    (run_of_enter entered).records_outermost (production_of_finish finished)
  have marks : Marks (.endOf tokens) tokens more s.rest := marks
  have added : s.errors.toList = more := added
  have named : ∀ e ∈ more, e.stack ≠ [] := fun e he none => by
    have entered := (paths e he).1.entered
    rw [none] at entered
    cases entered
  -- the mistake of what is left, if there is one, is recorded after all others
  have whole : Marks (.endOf tokens) tokens (g.parse entry tokens mode).errors s.rest := by
    rcases hend with ⟨found, rest, -, hrest, herrors⟩ | ⟨-, herrors⟩
    · have last : Marks (.endOf tokens) s.rest [⟨.redundantInput found.text, found.span, []⟩]
          s.rest := by
        refine .cons List.suffix_rfl ?_ (.nil List.suffix_rfl)
        rw [hrest]
        exact ⟨rfl, rfl⟩
      rw [herrors, added]
      exact marks.append last
    · rw [herrors, added]
      exact marks
  obtain ⟨indices, points, ordered, -⟩ := whole.exists_indices []
  refine ⟨⟨indices, points, ordered⟩, fun e he => ?_, fun source file lexed => ?_⟩
  · have known : e ∈ more ∨ ∃ found rest, ending = .complete ∧ s.rest = found :: rest ∧
        e = ⟨.redundantInput found.text, found.span, []⟩ ∧
        (g.parse entry tokens mode).errors = s.errors.toList ++ [e] := by
      rcases hend with ⟨found, rest, complete, hrest, herrors⟩ | ⟨-, herrors⟩
      · rw [herrors] at he
        rcases List.mem_append.mp he with he | he
        · exact .inl (added ▸ he)
        · obtain rfl := List.mem_singleton.mp he
          exact .inr ⟨found, rest, complete, hrest, rfl, herrors⟩
      · rw [herrors, added] at he
        exact .inl he
    rcases known with he | ⟨found, rest, rfl, hrest, rfl, herrors⟩
    · exact ⟨(paths e he).2, fun _ => (paths e he).1, fun none => absurd none (named e he)⟩
    · exact ⟨Nat.zero_le _, fun some => absurd rfl some,
        fun _ => ⟨s, found, rest, entered, hrest, rfl, herrors⟩⟩
  · subst lexed
    have places := pairwise_withEnd (pairwise_tokens_ofSource source file)
      fun t ht => offset_le_of_mem_ofSource source file ht
    exact pairwise_of_pointsAt places points ordered

/-- A selection set with two mistakes in it and one word behind it. -/
def overrunSource : String := "\x7b a(b: [1 ) ) c \x7d x"

/-- Its tokens. -/
def overrunTokens : List Token := (Scan.ofSource overrunSource).tokens

set_option maxRecDepth 100000 in
/-- The first mistake of that text is recorded seven rules deep, the second in the outermost rule,
    and the third behind it. -/
theorem mistakes_anchored_overrun :
    ((Standard.grammar.parse .selectionSet overrunTokens).errors.map fun e =>
        (e.stack.length, e.fault.found, e.span.start.offset))
      = [(7, ")", 10), (1, ")", 12), (0, "x", 18)] ∧
    (∃ indices : List Nat,
      List.Forall₂ (fun e i => e.PointsAt overrunTokens i)
          (Standard.grammar.parse .selectionSet overrunTokens).errors indices ∧
        indices.Pairwise (· ≤ ·)) ∧
    (∀ e ∈ (Standard.grammar.parse .selectionSet overrunTokens).errors,
      e.stack ≠ [] → CallPath Standard.grammar.productions .selectionSet e.stack) ∧
    (Standard.grammar.parse .selectionSet overrunTokens).errors.Pairwise fun a b =>
      a.span.start.offset ≤ b.span.start.offset := by
  obtain ⟨points, named, ordered⟩ :=
    mistakes_anchored Standard.finish_eq .selectionSet overrunTokens .tree
  have shape : ((Standard.grammar.parse .selectionSet overrunTokens).errors.map fun e =>
      (e.stack.length, e.fault.found, e.span.start.offset))
        = [(7, ")", 10), (1, ")", 12), (0, "x", 18)] := by
    decide +kernel
  exact ⟨shape, points, fun e he => (named e he).2.1, ordered overrunSource none rfl⟩

end GraphQL
