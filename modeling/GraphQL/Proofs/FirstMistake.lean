/-
  The first mistake is recorded as soon as there is one.

  Up to its first mistake a reading follows the productions, so the tokens before it are the
  beginning of something that can be derived: what the reading has begun can be completed, in every
  rule that is being read (`Completable`).  So the first mistake of a parse never stands behind the
  first token that makes the input wrong.

  The proof is an induction over runs that are stopped where they record their first mistake
  (`Run.mistakeAfter`).  Of two runs one after the other, the first is clean and derives what it
  takes, or the mistake is its own and the second only has to be completed.
-/
import GraphQL.Proofs.Completable
import GraphQL.Proofs.Soundness

namespace GraphQL

/-! ## Where a mistake is recorded -/

/-- Whether a mistake is recorded at a token: it has the place of the token and shows its text. -/
def SyntaxError.At (e : SyntaxError) (found : Token) : Prop :=
  e.span = found.span ∧ e.fault.found = found.text

/-- A run whose first mistake is recorded at a token, the tokens before which are viable. -/
def MistakeAfter (g : Productions) (c : Context) (p : Production) (s s' : State) : Prop :=
  ∃ e more before after, s'.errors.toList = s.errors.toList ++ e :: more ∧
    s.rest = before ++ after ∧ e.At (c.next after) ∧ Viable g c.constant p before

namespace MistakeAfter

variable {g : Productions} {c : Context} {p q r : Production} {s mid s' : State}

/-- The mistake is recorded at once. -/
theorem here {e : SyntaxError} (added : s'.errors.toList = s.errors.toList ++ [e])
    (found : e.At (c.next s.rest)) (viable : Viable g c.constant p []) :
    MistakeAfter g c p s s' :=
  ⟨e, [], [], s.rest, added, rfl, found, viable⟩

/-- Later mistakes do not matter. -/
theorem extend {must : Prop} (h : MistakeAfter g c p s mid)
    (more : Extends must mid.errors s'.errors) : MistakeAfter g c p s s' := by
  obtain ⟨e, others, before, after, added, hrest, found, viable⟩ := h
  obtain ⟨later, hlater, -⟩ := more
  refine ⟨e, others ++ later, before, after, ?_, hrest, found, viable⟩
  rw [hlater, added, List.append_assoc, List.cons_append]

/-- What is viable for a part is viable for the whole. -/
theorem map (h : MistakeAfter g c p s s')
    (wrap : ∀ {before}, Viable g c.constant p before → Viable g c.constant q before) :
    MistakeAfter g c q s s' := by
  obtain ⟨e, more, before, after, added, hrest, found, viable⟩ := h
  exact ⟨e, more, before, after, added, hrest, found, wrap viable⟩

/-- The mistake is recorded behind what a clean run has taken. -/
theorem behind {taken : List Token} (h : MistakeAfter g c q mid s')
    (hrest : s.rest = taken ++ mid.rest) (clean : mid.errors = s.errors)
    (wrap : ∀ {before}, Viable g c.constant q before → Viable g c.constant r (taken ++ before)) :
    MistakeAfter g c r s s' := by
  obtain ⟨e, more, before, after, added, hmid, found, viable⟩ := h
  refine ⟨e, more, taken ++ before, after, ?_, ?_, found, wrap viable⟩
  · rw [added, clean]
  · rw [hrest, hmid, List.append_assoc]

/-- Of two runs one after the other, the first is clean and derives what it takes, or the mistake is
    its own. -/
theorem andThen {must : Prop} (dirty : s'.errors ≠ s.errors)
    (derives : mid.errors = s.errors →
      ∃ taken, s.rest = taken ++ mid.rest ∧ Derivable g c.constant p taken)
    (inFirst : mid.errors ≠ s.errors → MistakeAfter g c p s mid)
    (inSecond : s'.errors ≠ mid.errors → MistakeAfter g c q mid s')
    (more : Extends must mid.errors s'.errors)
    (first : ∀ {before}, Viable g c.constant p before → Viable g c.constant r before)
    (second : ∀ {taken before}, Derivable g c.constant p taken → Viable g c.constant q before →
      Viable g c.constant r (taken ++ before)) : MistakeAfter g c r s s' := by
  by_cases clean : mid.errors = s.errors
  · obtain ⟨taken, hrest, derivable⟩ := derives clean
    rw [← clean] at dirty
    exact (inSecond dirty).behind hrest clean (second derivable)
  · exact ((inFirst clean).map first).extend more

/-- The mistake is recorded in the body of a called rule. -/
theorem call {rule : Rule} {arg : ConstArg} {follow : List TokenKind} {inner : State}
    (body : p = g.get rule)
    (h : MistakeAfter g (c.inside rule arg follow) p { s with parts := #[] } inner)
    (same : s'.errors = inner.errors) : MistakeAfter g c (.call rule arg) s s' := by
  subst body
  obtain ⟨e, more, before, after, added, hrest, found, viable⟩ := h
  refine ⟨e, more, before, after, ?_, hrest, found, .call viable⟩
  rw [same, added]

end MistakeAfter

/-! ## Runs up to their first mistake -/

section Runs

variable {g : Grammar} {n : Nat} {c : Context} {plan : Plan} {s s' : State} {ending : Ending}

/-- A run that records nothing takes something derivable. -/
theorem Run.exists_derivable (made : ∀ r, (g.plans.get r).production = g.productions.get r)
    (reserved : g.productions.NeverExpects .endOfInput) (h : Run g n c plan s s' ending)
    (clean : s'.errors = s.errors) (atEnd : c.endToken.kind = .endOfInput)
    (noEnd : .endOfInput ∉ plan.production.demands) :
    ∃ taken, s.rest = taken ++ s'.rest ∧
      Derivable g.productions c.constant plan.production taken := by
  have keeps : g.Keeps c.mode anywhere := fun _ _ _ _ => trivial
  obtain ⟨parts, derives, -⟩ := h.derives_of_keeps keeps made reserved rfl clean atEnd noEnd
  exact derives.exists_derivable

/-- A repetition is viable as one that may be empty is, behind a round. -/
theorem viable_repetition {p : Productions} {constant : Bool} {ahead : Lookahead} {body : Plan}
    {after : AfterRepetition} {taken before : List Token} (nonempty : Bool)
    (first : Derivable p constant body.production taken)
    (others : Viable p constant (.many body.production) before) :
    Viable p constant (Plan.repetition nonempty ahead body after).production (taken ++ before) := by
  cases nonempty with
  | false => exact .second .again first others
  | true => exact .second .once first others

/-- A repetition is viable where its first round is. -/
theorem viable_round {p : Productions} {constant : Bool} {ahead : Lookahead} {body : Plan}
    {after : AfterRepetition} {before : List Token} (nonempty : Bool)
    (first : Viable p constant body.production before) :
    Viable p constant (Plan.repetition nonempty ahead body after).production before := by
  cases nonempty with
  | false => exact .first .again first .done
  | true => exact .first .once first .done

theorem passable_repetition {constant : Bool} {ahead : Lookahead} {body : Plan}
    {after : AfterRepetition} (nonempty : Bool) :
    (Plan.repetition nonempty ahead body after).production.passable constant
      = body.production.passable constant := by
  cases nonempty <;> rfl

/-- A run that records a mistake records the first one at a token before which everything is viable.
    Induction on the run; where one run follows another, the mistake is in the first, or the first
    is clean. -/
theorem Run.mistakeAfter (made : ∀ r, (g.plans.get r).production = g.productions.get r)
    (reserved : g.productions.NeverExpects .endOfInput) (completable : g.productions.Completable)
    (h : Run g n c plan s s' ending) (dirty : s'.errors ≠ s.errors)
    (atEnd : c.endToken.kind = .endOfInput) (noEnd : .endOfInput ∉ plan.production.demands)
    (passable : plan.production.passable c.constant = true) :
    MistakeAfter g.productions c plan.production s s' := by
  have bodies : ∀ r flag, .endOfInput ∉ (g.plans.get r).production.demands ∧
      (g.plans.get r).production.passable flag = true := by
    intro r flag
    rw [made]
    exact ⟨reserved r, completable.passable r flag⟩
  induction h with
  | take => exact absurd (errors_take ..) dirty
  | nil => exact absurd rfl dirty
  | skip => exact absurd rfl dirty
  | insert =>
    have added := errors_recordMismatch
    exact .here (by rw [errors_file]; exact added ..) ⟨rfl, rfl⟩ (completable.viable passable)
  | delete =>
    have added := errors_recordMismatch
    exact .here (by rw [errors_take]; exact added ..) ⟨rfl, rfl⟩ (completable.viable passable)
  | miss => exact .here (errors_recordMismatch ..) ⟨rfl, rfl⟩ (completable.viable passable)
  | tooDeep | noRound | noBranch =>
    exact .here (errors_record ..) ⟨rfl, rfl⟩ (completable.viable passable)
  | @close _ c rule arg _ _ _ _ ih | @abort _ c rule arg _ _ _ _ ih
  | @resync _ c rule arg _ _ _ _ _ ih | @unwind _ c rule arg _ _ _ _ _ ih =>
    -- however a rule is left, it records what its body does
    obtain ⟨noEnd, passable⟩ := bodies rule (arg.resolve c.constant)
    rw [errors_close] at dirty
    exact .call (made rule) (ih dirty atEnd noEnd passable) (errors_close ..)
  | @cons n c p rest s mid s' ending first others ih₁ ih₂ =>
    rw [Plan.demands_cons, List.mem_append, not_or] at noEnd
    obtain ⟨passableFirst, passableOthers⟩ := Bool.and_eq_true_iff.mp passable
    have complete : Viable g.productions c.constant (Plan.sequence rest).production [] :=
      completable.viable passableOthers
    exact .andThen dirty (first.exists_derivable made reserved · atEnd noEnd.1)
      (ih₁ · atEnd noEnd.1 passableFirst) (ih₂ · atEnd noEnd.2 passableOthers)
      others.errors_extend (.first .cons · complete) (.second .cons)
  | @cut n c p rest s s' ending first cuts ih =>
    rw [Plan.demands_cons, List.mem_append, not_or] at noEnd
    obtain ⟨passableFirst, passableOthers⟩ := Bool.and_eq_true_iff.mp passable
    have complete : Viable g.productions c.constant (Plan.sequence rest).production [] :=
      completable.viable passableOthers
    exact (ih dirty atEnd noEnd.1 passableFirst).map (.first .cons · complete)
  | enter _ _ ih => exact (ih dirty atEnd noEnd passable).map .enter
  | @round n c nonempty ahead body after s mid s' ending _ first _ others ih₁ ih₂ =>
    rw [Plan.demands_repetition] at noEnd
    rw [passable_repetition] at passable
    exact .andThen dirty (first.exists_derivable made reserved · atEnd noEnd)
      (ih₁ · atEnd noEnd passable) (ih₂ · atEnd noEnd passable) others.errors_extend
      (viable_round nonempty) (viable_repetition nonempty)
  | @idle _ _ nonempty _ _ _ _ _ _ _ _ ih | @broken _ _ nonempty _ _ _ _ _ _ _ _ _ ih =>
    rw [Plan.demands_repetition] at noEnd
    rw [passable_repetition] at passable
    exact (ih dirty atEnd noEnd passable).map (viable_round nonempty)
  | leave _ recovery =>
    -- a repetition may end where it stands, whatever is done about the token there
    obtain h | ⟨expected, skipped, rest, -, h | h⟩ := recover_cases recovery
    · cases h
      exact absurd rfl dirty
    · cases h
      obtain ⟨fault, found, added⟩ := errors_recordUnexpected _ _ _ _
      exact .here added ⟨rfl, found⟩ .done
    · cases h
  | @resume _ c _ body _ s mid _ _ _ recovery others =>
    obtain h | ⟨expected, skipped, rest, -, h | h⟩ := recover_cases recovery
    · cases h
    · cases h
    · cases h
      let mid := c.recordUnexpected expected (c.next s.rest) { s with rest }
      obtain ⟨fault, found, added⟩ :=
        errors_recordUnexpected c { s with rest } expected (c.next s.rest)
      have mistake : MistakeAfter g.productions c (.many body.production) s mid :=
        .here added ⟨rfl, found⟩ .done
      exact mistake.extend others.errors_extend
  | branch chosen opens _ _ ih =>
    have mem := Plan.mem_alternativesOf chosen
    have inside := Production.passable_of_mem mem (Bool.and_eq_true_iff.mp passable).2
    have mistake := ih dirty atEnd (fun h => noEnd (Plan.demands_branch chosen h)) inside
    exact mistake.map (.branch mem opens)

end Runs

/-! ## Whole inputs -/

/-- The first mistake of a parse is recorded at a token, or at the end, and the tokens before it are
    viable for the entry rule. -/
theorem exists_viable_of_mistake {d : Draft} {g : Grammar} (finished : d.finish = .ok g)
    (reserved : g.productions.NeverExpects .endOfInput) (completable : g.productions.Completable)
    {entry : Rule} {tokens : List Token} {mode : Mode} {e : SyntaxError} {more : List SyntaxError}
    (mistaken : (g.parse entry tokens mode).errors = e :: more) :
    ∃ before after, tokens = before ++ after ∧ e.At (after.headD (.endOf tokens)) ∧
      Viable g.productions false (g.productions.get entry) before := by
  have made := production_of_finish finished
  have atEnd := kind_endOf tokens
  have noEnd : TokenKind.endOfInput ∉ (Plan.call entry (.fixed false) []).production.demands :=
    nofun
  have ofCall : ∀ {before}, Viable g.productions false (.call entry (.fixed false)) before →
      Viable g.productions false (g.productions.get entry) before := by
    intro before h
    refine h.map fun ⟨n, parts, derives⟩ => ?_
    cases derives with
    | call body _ => exact ⟨_, _, body⟩
  obtain ⟨s, ending, run, -, hend⟩ := parse_cases g entry tokens mode
  by_cases clean : s.errors = #[]
  · -- the entry rule was read to its end, and the mistake is what is left
    obtain ⟨taken, htokens, derivable⟩ := run.exists_derivable made reserved clean atEnd noEnd
    rcases hend with ⟨found, rest, -, hrest, herrors⟩ | ⟨-, herrors⟩
    · rw [mistaken, clean] at herrors
      cases herrors
      refine ⟨taken, s.rest, htokens, ?_, ofCall (.of_derivable derivable)⟩
      rw [hrest]
      exact ⟨rfl, rfl⟩
    · rw [mistaken, clean] at herrors
      cases herrors
  · obtain ⟨first, others, before, after, added, htokens, found, viable⟩ :=
      run.mistakeAfter made reserved completable clean atEnd noEnd rfl
    have same : e = first := by
      rcases hend with ⟨_, _, -, -, herrors⟩ | ⟨-, herrors⟩
      all_goals
        rw [mistaken, added] at herrors
        cases herrors
        rfl
    exact ⟨before, after, htokens, same ▸ found, ofCall viable⟩

/-- Some tokens and the end behind them. -/
def Token.withEnd (tokens : List Token) : List Token := tokens ++ [.endOf tokens]

/-- Whether a mistake is recorded at the token in a place; behind the last token is the end. -/
def SyntaxError.AtIndex (e : SyntaxError) (tokens : List Token) (i : Nat) : Prop :=
  ∃ found, (Token.withEnd tokens)[i]? = some found ∧ e.At found

/-- Where tokens and their end stand in different places, a mistake is recorded at one of them. -/
theorem SyntaxError.AtIndex.eq {e : SyntaxError} {tokens : List Token} {i j : Nat}
    (apart : ((Token.withEnd tokens).map Token.span).Nodup) (hi : e.AtIndex tokens i)
    (hj : e.AtIndex tokens j) : i = j := by
  obtain ⟨t, ht, placed, -⟩ := hi
  obtain ⟨u, hu, placed', -⟩ := hj
  obtain ⟨bound, -⟩ := List.getElem?_eq_some_iff.mp ht
  have same : ((Token.withEnd tokens).map Token.span)[i]?
      = ((Token.withEnd tokens).map Token.span)[j]? := by
    rw [List.getElem?_map, List.getElem?_map, ht, hu]
    exact congrArg some (placed.symm.trans placed')
  rw [← List.length_map Token.span] at bound
  exact (List.getElem?_inj bound apart).mp same

/-- The first mistake of a parse is recorded as soon as there is one: the tokens before it can be
    completed to a list that the production of the entry rule derives.  The place where it is
    recorded is the only one, if no two tokens stand in one place. -/
theorem first_mistake_prompt {g : Grammar} (standard : Standard.grammar? = .ok g) {entry : Rule}
    {tokens : List Token} {mode : Mode} {e : SyntaxError} {more : List SyntaxError}
    (mistaken : (g.parse entry tokens mode).errors = e :: more) :
    ∃ i, e.AtIndex tokens i ∧
      (((Token.withEnd tokens).map Token.span).Nodup → ∀ j, e.AtIndex tokens j → j = i) ∧
      Viable g.productions false (g.productions.get entry) (tokens.take i) := by
  obtain rfl : Standard.grammar = g := Except.ok.inj (Standard.grammar?_eq.symm.trans standard)
  obtain ⟨before, after, rfl, found, viable⟩ :=
    exists_viable_of_mistake Standard.finish_eq Standard.reserved Standard.completable mistaken
  have atIndex : e.AtIndex (before ++ after) before.length := by
    refine ⟨_, ?_, found⟩
    rw [Token.withEnd, List.append_assoc, List.getElem?_append_right (Nat.le_refl _), Nat.sub_self]
    cases after <;> rfl
  refine ⟨before.length, atIndex, fun apart j hj => hj.eq apart atIndex, ?_⟩
  rwa [List.take_left]

/-- The tokens of a selection that breaks off behind a colon. -/
def cutOffTokens : List Token := (Scan.ofSource "\x7b a : \x7d").tokens

set_option maxRecDepth 100000 in
/-- In a selection that breaks off behind a colon, the first mistake is recorded at the brace, and
    what stands before it can be completed. -/
theorem first_mistake_prompt_cutOff :
    ∃ e more, (Standard.grammar.parse .document cutOffTokens).errors = e :: more ∧
      ((Token.withEnd cutOffTokens).map Token.span).Nodup ∧ e.AtIndex cutOffTokens 3 ∧
      Viable Standard.productions false (Standard.productions.get .document)
        (cutOffTokens.take 3) := by
  obtain ⟨some, apart, placed⟩ : (Standard.grammar.parse .document cutOffTokens).errors ≠ [] ∧
      ((Token.withEnd cutOffTokens).map Token.span).Nodup ∧
      ((Standard.grammar.parse .document cutOffTokens).errors.head?.map fun e =>
        (e.span, e.fault.found))
          = ((Token.withEnd cutOffTokens)[3]?.map fun t => (t.span, t.text)) := by
    decide +kernel
  obtain ⟨e, more, mistaken⟩ := List.exists_cons_of_ne_nil some
  obtain ⟨i, atIndex, unique, viable⟩ := first_mistake_prompt Standard.grammar?_eq mistaken
  have third : e.AtIndex cutOffTokens 3 := by
    rw [mistaken] at placed
    obtain ⟨t, ht, same⟩ := Option.map_eq_some_iff.mp placed.symm
    obtain ⟨span, text⟩ := Prod.mk.inj same
    exact ⟨t, ht, span.symm, text.symm⟩
  obtain rfl := unique apart 3 third
  exact ⟨e, more, mistaken, apart, third, viable⟩

end GraphQL
