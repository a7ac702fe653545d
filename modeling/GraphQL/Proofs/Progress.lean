/-
  A parse goes forward and comes to an end.

  Nothing that a parse does puts a token back: however a run ends, the tokens that it leaves are the
  last ones of those that it found (`Run.suffix`).  So a round of a repetition that leaves another
  number of tokens than it found leaves fewer, and a repetition goes on only forward
  (`Task.GoesOn.shorter`).  The same holds where the recovery resumes a repetition, because it does
  not open where the recovery starts.

  To read a plan other plans have to be read, and those in turn others; `Task.Awaits` says which.
  There is no endless row of them (`wellFounded_awaits`).  From one to the next the levels that are
  left get fewer, as a rule is entered; or they stay, and the plan gets smaller, as one of its parts
  is read; or both stay, and the tokens get fewer, as a repetition goes on.

  `Task.step` reads one plan and leaves open what the readings that it waits for give.  A recursion
  without an endless row has one solution, and the reading functions are it (`result_iff_step`).  So
  `Task.Awaits` has left out no reading on which a parse depends.
-/
import Mathlib.Data.Prod.Lex
import Mathlib.Logic.Relation
import GraphQL.Proofs.Simulation
import GraphQL.Proofs.StandardGrammar

namespace GraphQL

/-! ## Places -/

/-- A state stands before the token of the index, or behind the last one. -/
structure State.Stands (tokens : List Token) (i : Nat) (s : State) : Prop where
  le : i ≤ tokens.length
  rest_eq : s.rest = tokens.drop i

/-- Where the last ones of some tokens are left, a state stands no earlier than before; and later,
    if fewer are left. -/
theorem State.Stands.of_suffix {tokens : List Token} {i : Nat} {s s' : State}
    (h : s.Stands tokens i) (further : s'.rest <:+ s.rest) :
    ∃ j, i ≤ j ∧ s'.Stands tokens j ∧ (s'.rest.length < s.rest.length → i < j) := by
  obtain ⟨passed, split⟩ := further
  have left : s.rest.length = tokens.length - i := by rw [h.rest_eq, List.length_drop]
  have lengths : passed.length + s'.rest.length = s.rest.length := by
    rw [← List.length_append, split]
  have within := h.le
  refine ⟨i + passed.length, by omega, ⟨by omega, ?_⟩, by omega⟩
  rw [← List.drop_drop, ← h.rest_eq, ← split, List.drop_left]

/-! ## Runs go forward -/

theorem suffix_of_recover {c : Context} {ahead : Lookahead} {after : AfterRepetition} {s : State}
    {r : Context.Recovery} (h : c.recover ahead after s = r) : r.state.rest <:+ s.rest := by
  obtain rfl | ⟨expected, skipped, rest, split, rfl | rfl⟩ := recover_cases h
  · exact List.suffix_rfl
  · exact ⟨skipped, by rw [Context.Recovery.state, Context.rest_recordUnexpected, split]⟩
  · exact ⟨skipped, by rw [Context.Recovery.state, Context.rest_recordUnexpected, split]⟩

/-- A run leaves the last ones of the tokens that it finds. -/
theorem Run.suffix {g : Grammar} {n : Nat} {c : Context} {plan : Plan} {s s' : State}
    {ending : Ending} (h : Run g n c plan s s' ending) : s'.rest <:+ s.rest := by
  -- by induction on the run: tokens are taken and skipped, and never put back
  induction h with
  | take => exact List.tail_suffix _
  | insert => simp [List.suffix_rfl]
  | delete => exact (List.tail_suffix _).trans (List.tail_suffix _)
  | miss => exact List.suffix_rfl
  | close _ ih =>
    rw [rest_close]
    exact ih
  | resync _ _ ih =>
    rw [rest_close]
    exact (List.dropWhile_suffix _).trans ih
  | unwind _ _ ih =>
    rw [rest_close]
    exact ih
  | abort _ ih =>
    rw [rest_close]
    exact ih
  | tooDeep => exact List.suffix_rfl
  | nil => exact List.suffix_rfl
  | cons _ _ ih₁ ih₂ => exact ih₂.trans ih₁
  | cut _ _ ih => exact ih
  | skip => exact List.suffix_rfl
  | enter _ _ ih => exact ih
  | noRound => exact List.suffix_rfl
  | round _ _ _ _ ih₁ ih₂ => exact ih₂.trans ih₁
  | idle _ _ _ ih => exact ih
  | broken _ _ _ ih => exact ih
  | leave _ recovery => exact suffix_of_recover recovery
  | resume _ recovery _ ih => exact ih.trans (suffix_of_recover recovery)
  | branch _ _ _ _ ih => exact ih
  | noBranch => exact List.suffix_rfl

/-! ## Readings that wait for others -/

/-- A plan that is to be read at a state, with so many levels left. -/
structure Task where
  levels : Nat
  context : Context
  plan : Plan
  state : State

namespace Task

/-- What comes of reading it. -/
def result (g : Grammar) (t : Task) : State × Ending :=
  g.reading t.levels t.context t.plan t.state

/-- The reading of the entry rule at the start of some tokens. -/
def whole (mode : Mode) (entry : Rule) (tokens : List Token) : Task :=
  ⟨maxDepth, .outermost mode tokens, .call entry (.fixed false) [], { rest := tokens }⟩

/-- A repetition goes on: after a round that has changed the place, or where the recovery resumes
    it. -/
inductive GoesOn (g : Grammar) : Task → Task → Prop where
  | round {n c nonempty ahead body after s s'} (opens : c.sees ahead s.rest = true)
      (first : g.reading n c body s = (s', .complete))
      (moved : s'.rest.length ≠ s.rest.length) :
      GoesOn g ⟨n, c, .repetition nonempty ahead body after, s⟩
        ⟨n, c, .repetition false ahead body after, s'⟩
  | resume {n c ahead body after s s'} (closed : c.sees ahead s.rest = false)
      (recovery : c.recover ahead after s = .resume s') :
      GoesOn g ⟨n, c, .repetition false ahead body after, s⟩
        ⟨n, c, .repetition false ahead body after, s'⟩

/-- Whether a branch of a choice may be read here and opens. -/
def due (c : Context) (s : State) : Gate × Lookahead × Plan → Bool
  | (gate, ahead, _) => gate.allows c.constant && c.sees ahead s.rest

/-- The readings that a reading waits for. -/
inductive Awaits (g : Grammar) : Task → Task → Prop where
  | call {n c rule arg follow s} :
      Awaits g ⟨n + 1, c, .call rule arg follow, s⟩
        ⟨n, c.inside rule arg follow, g.plans.get rule, { s with parts := #[] }⟩
  | first {n c p rest s} : Awaits g ⟨n, c, .sequence (p :: rest), s⟩ ⟨n, c, p, s⟩
  | others {n c p rest s s'} (first : g.reading n c p s = (s', .complete)) :
      Awaits g ⟨n, c, .sequence (p :: rest), s⟩ ⟨n, c, .sequence rest, s'⟩
  | inside {n c ahead body s} (opens : c.sees ahead s.rest = true) :
      Awaits g ⟨n, c, .optional ahead body, s⟩ ⟨n, c, body, s⟩
  | round {n c nonempty ahead body after s} (opens : c.sees ahead s.rest = true) :
      Awaits g ⟨n, c, .repetition nonempty ahead body after, s⟩ ⟨n, c, body, s⟩
  | goesOn {t u} (h : GoesOn g t u) : Awaits g t u
  | branch {n c branches gate ahead body s}
      (chosen : branches.find? (due c s) = some (gate, ahead, body)) :
      Awaits g ⟨n, c, .choice branches, s⟩ ⟨n, c, body, s⟩

/-- Reads one plan, and asks `ask` for all the readings that this one waits for.  That is how plans
    are read, with the recursion left open. -/
def step (g : Grammar) (ask : Task → State × Ending) : Task → State × Ending
  | ⟨_, c, .token kind follow, s⟩ => c.consume kind follow s
  | ⟨0, c, .call rule _ _, s⟩ =>
    (c.record (.tooDeep maxDepth rule (c.next s.rest).text) (c.next s.rest) s, .aborted)
  | ⟨n + 1, c, .call rule arg follow, s⟩ =>
    (c.inside rule arg follow).leave rule s <|
      ask ⟨n, c.inside rule arg follow, g.plans.get rule, { s with parts := #[] }⟩
  | ⟨_, _, .sequence [], s⟩ => (s, .complete)
  | ⟨n, c, .sequence (p :: rest), s⟩ =>
    match ask ⟨n, c, p, s⟩ with
    | (s', .complete) => ask ⟨n, c, .sequence rest, s'⟩
    | (s', ending) => (s', ending)
  | ⟨n, c, .optional ahead body, s⟩ =>
    if c.sees ahead s.rest then ask ⟨n, c, body, s⟩ else (s, .complete)
  | ⟨n, c, .repetition nonempty ahead body after, s⟩ =>
    if c.sees ahead s.rest then
      match ask ⟨n, c, body, s⟩ with
      | (s', .complete) =>
        if s'.rest.length ≠ s.rest.length then
          ask ⟨n, c, .repetition false ahead body after, s'⟩
        else (s', .complete)
      | (s', ending) => (s', ending)
    else if nonempty then
      (c.record (.noIteration ahead.paths (c.next s.rest).text) (c.next s.rest) s, .stuck)
    else
      match c.recover ahead after s with
      | .leave s' => (s', .complete)
      | .resume s' => ask ⟨n, c, .repetition false ahead body after, s'⟩
  | ⟨n, c, .choice branches, s⟩ =>
    match branches.find? (due c s) with
    | some (_, _, body) => ask ⟨n, c, body, s⟩
    | none =>
      (c.record (.noAlternative (Plan.pathsOf branches) (c.next s.rest).text) (c.next s.rest) s,
        .stuck)

end Task

/-! ## Readings go forward -/

section Forward

variable {g : Grammar} {t u : Task}

/-- A reading leaves the last ones of the tokens that it finds. -/
theorem suffix_of_result (g : Grammar) (t : Task) : (t.result g).1.rest <:+ t.state.rest :=
  (run_reading g t.levels t.context t.plan t.state).suffix

theorem suffix_of_reading {n : Nat} {c : Context} {p : Plan} {s s' : State} {ending : Ending}
    (h : g.reading n c p s = (s', ending)) : s'.rest <:+ s.rest := by
  have further := suffix_of_result g ⟨n, c, p, s⟩
  rw [Task.result, h] at further
  exact further

/-- Where a repetition goes on it has left fewer tokens, and the last ones. -/
theorem Task.GoesOn.shorter (h : GoesOn g t u) :
    u.state.rest <:+ t.state.rest ∧ u.state.rest.length < t.state.rest.length := by
  cases h with
  | round _ first moved =>
    have further := suffix_of_reading first
    exact ⟨further, Nat.lt_of_le_of_ne further.length_le moved⟩
  | resume closed recovery =>
    have shut : ¬ _ = true := ne_true_of_eq_false closed
    exact ⟨suffix_of_recover recovery, Context.rest_lt_of_recover shut recovery⟩

/-- A reading that is waited for finds the last ones of the tokens. -/
theorem Task.Awaits.suffix (h : Awaits g t u) : u.state.rest <:+ t.state.rest := by
  cases h with
  | others first => exact suffix_of_reading first
  | goesOn h => exact h.shorter.1
  | call | first | inside | round | branch => exact List.suffix_rfl

/-- All readings that a reading waits for, directly or not, find the last ones of its tokens. -/
theorem suffix_of_awaited (h : Relation.ReflTransGen (Task.Awaits g) t u) :
    u.state.rest <:+ t.state.rest := by
  induction h with
  | refl => exact List.suffix_rfl
  | tail _ last ih => exact last.suffix.trans ih

end Forward

/-! ## No endless row of readings -/

/-- What gets less from a reading to one that it waits for: the levels, or the plan, or the
    tokens. -/
noncomputable def Task.measure (t : Task) : Nat ×ₗ Nat ×ₗ Nat :=
  toLex (t.levels, toLex (sizeOf t.plan, t.state.rest.length))

/-- Where the levels stay and the plan gets smaller, the measure falls. -/
theorem measure_lt_of_part {n : Nat} {c c' : Context} {p q : Plan} {s s' : State}
    (part : sizeOf p < sizeOf q) :
    (⟨n, c', p, s'⟩ : Task).measure < (⟨n, c, q, s⟩ : Task).measure :=
  Prod.Lex.right _ (Prod.Lex.left _ _ part)

/-- What a task goes on with is smaller, for a round of a repetition takes at least one token. -/
theorem Task.GoesOn.measure_lt {g : Grammar} {t u : Task} (h : GoesOn g t u) :
    u.measure < t.measure := by
  obtain ⟨-, fewer⟩ := h.shorter
  have same : u.levels = t.levels ∧ sizeOf u.plan = sizeOf t.plan := by
    cases h <;> simp
  refine Prod.Lex.toLex_lt_toLex.mpr (.inr ⟨same.1, ?_⟩)
  exact Prod.Lex.toLex_lt_toLex.mpr (.inr ⟨same.2, fewer⟩)

/-- What a task awaits is smaller: a level of nesting, a part of the plan or some of the tokens is
    gone. -/
theorem Task.Awaits.measure_lt {g : Grammar} {t u : Task} (h : Awaits g t u) :
    u.measure < t.measure := by
  cases h with
  | call => exact Prod.Lex.left _ _ (Nat.lt_succ_self _)
  | first =>
    exact measure_lt_of_part (by rw [Plan.sequence.sizeOf_spec, List.cons.sizeOf_spec]; omega)
  | others =>
    refine measure_lt_of_part ?_
    rw [Plan.sequence.sizeOf_spec, Plan.sequence.sizeOf_spec, List.cons.sizeOf_spec]
    omega
  | inside => exact measure_lt_of_part (by rw [Plan.optional.sizeOf_spec]; omega)
  | round => exact measure_lt_of_part (by rw [Plan.repetition.sizeOf_spec]; omega)
  | goesOn h => exact h.measure_lt
  | branch chosen =>
    have within := List.sizeOf_lt_of_mem (List.mem_of_find?_eq_some chosen)
    rw [Prod.mk.sizeOf_spec, Prod.mk.sizeOf_spec] at within
    exact measure_lt_of_part (by rw [Plan.choice.sizeOf_spec]; omega)

/-- There is no endless row of readings each of which waits for the next. -/
theorem wellFounded_awaits (g : Grammar) : WellFounded fun u t => Task.Awaits g t u :=
  Subrelation.wf (fun h => h.measure_lt) (InvImage.wf Task.measure wellFounded_lt)

/-! ## The recursion -/

/-- The branch that is read is the first that is due. -/
theorem readBranch_eq (c : Context)
    (enter : Rule → Bool → List TokenKind → State → State × Ending)
    (branches : List (Gate × Lookahead × Plan)) (s : State) :
    Plan.readBranch c enter branches s
      = (branches.find? (Task.due c s)).map fun (_, _, body) => body.read c enter s := by
  induction branches with
  | nil => rfl
  | cons branch rest ih =>
    obtain ⟨gate, ahead, body⟩ := branch
    rw [Plan.readBranch, List.find?_cons, ih]
    simp only [Task.due]
    cases gate.allows c.constant && c.sees ahead s.rest <;> rfl

section Steps

variable {g : Grammar} {n : Nat} {c : Context} {ahead : Lookahead} {body : Plan}
  {after : AfterRepetition} {s : State} {ask : Task → State × Ending}

/-- The step of a repetition. -/
theorem step_repetition {nonempty : Bool}
    (answers : ∀ u, Task.Awaits g ⟨n, c, .repetition nonempty ahead body after, s⟩ u →
      ask u = u.result g) :
    Task.step g ask ⟨n, c, .repetition nonempty ahead body after, s⟩
      = g.reading n c (.repetition nonempty ahead body after) s := by
  rw [Task.step]
  by_cases opens : c.sees ahead s.rest = true
  · have round : ask ⟨n, c, body, s⟩ = g.reading n c body s := answers _ (.round opens)
    rw [if_pos opens, round, reading_repetition (.inr opens), iterate_of_opens opens]
    rcases first : g.reading n c body s with ⟨s', ending⟩
    cases ending with
    | stuck => rfl
    | aborted => rfl
    | complete =>
      -- a round leaves no more tokens than it finds, so another number of them is less
      have further := (suffix_of_reading first).length_le
      by_cases moved : s'.rest.length ≠ s.rest.length
      · have others := answers _ (.goesOn (.round opens first moved))
        exact (if_pos moved).trans <| others.trans <| (reading_repetition (.inl rfl)).trans
          (if_pos (by omega)).symm
      · exact (if_neg moved).trans (if_neg (by omega)).symm
  · have closed : c.sees ahead s.rest = false := eq_false_of_ne_true opens
    rw [if_neg opens]
    cases nonempty with
    | true =>
      rw [if_pos rfl, Grammar.reading, Plan.read, closed]
      rfl
    | false =>
      rw [if_neg Bool.false_ne_true, reading_repetition (.inl rfl), iterate_of_closed opens]
      cases recovery : c.recover ahead after s with
      | leave s' => rfl
      | resume s' =>
        have others := answers _ (.goesOn (.resume closed recovery))
        exact others.trans (reading_repetition (.inl rfl))

end Steps

/-- The reading of a plan is one step of it, if what is asked for is what comes of the readings that
    it waits for. -/
theorem step_eq_result {g : Grammar} {ask : Task → State × Ending} {t : Task}
    (answers : ∀ u, Task.Awaits g t u → ask u = u.result g) : t.step g ask = t.result g := by
  rcases t with ⟨n, c, plan, s⟩
  cases plan with
  | token kind follow => rfl
  | call rule arg follow =>
    -- without levels the call is not made
    cases n with
    | zero => rfl
    | succ n => 
      rw [Task.step, answers _ .call]
      rfl
  | sequence items =>
    cases items with
    | nil => rfl
    | cons p rest =>
      -- the others are asked only if the first one ended well
      have first : ask ⟨n, c, p, s⟩ = g.reading n c p s := answers _ .first
      rw [Task.step, first, Task.result, reading_row]
      rcases done : g.reading n c p s with ⟨s', ending⟩
      cases ending with
      | complete => exact answers _ (.others done)
      | stuck => rfl
      | aborted => rfl
  | optional ahead body =>
    simp only [Task.step, Task.result, Grammar.reading, Plan.read]
    -- the part is entered exactly if its beginning is seen
    by_cases opens : c.sees ahead s.rest = true
    · rw [if_pos opens, if_pos opens]
      exact answers _ (.inside opens)
    · rw [if_neg opens, if_neg opens]
  | repetition nonempty ahead body after => exact step_repetition answers
  | choice branches =>
    -- the first branch that is due is asked
    simp only [Task.step, Task.result, Grammar.reading, Plan.read, readBranch_eq]
    cases chosen : branches.find? (Task.due c s) with
    | none => rfl
    | some branch => exact answers _ (.branch chosen)

/-- The recursion by which plans are read has one solution, which is the reading. -/
theorem result_iff_step (g : Grammar) (ask : Task → State × Ending) :
    (∀ t, ask t = t.step g ask) ↔ ∀ t, ask t = t.result g := by
  constructor
  · intro recursion t
    induction t using (wellFounded_awaits g).induction with
    | _ t ih => exact (recursion t).trans (step_eq_result ih)
  · intro answers t
    exact (answers t).trans (step_eq_result fun u _ => answers u).symm

/-! ## Whole parses -/

/-- Every parse comes to an end, and on its way never goes back.

    First, there is no endless row of readings each of which waits for the next; and these are the
    readings on which the recursion of a parse depends, since it has just one solution.  Second, the
    parse of some tokens is the reading of its entry rule.  Third, every reading in it, be it of a
    rule or of a part of one, stands at a place of the tokens when it starts, and at the same place
    or a later one when it ends.  Last, wherever a repetition goes on, after a round or where the
    recovery resumes it, it stands at a later place. -/
theorem readings_end_and_advance (g : Grammar) (entry : Rule) (tokens : List Token) (mode : Mode) :
    (WellFounded fun u t => Task.Awaits g t u) ∧
    (∀ ask : Task → State × Ending,
      (∀ t, ask t = t.step g ask) ↔ ∀ t, ask t = t.result g) ∧
    (∃ s ending, (Task.whole mode entry tokens).result g = (s, ending) ∧
      (g.parse entry tokens mode).tree = Grammar.treeOf s ∧
      s.errors.toList <+: (g.parse entry tokens mode).errors) ∧
    ∀ t, Relation.ReflTransGen (Task.Awaits g) (.whole mode entry tokens) t →
      (∃ i j, i ≤ j ∧ t.state.Stands tokens i ∧ (t.result g).1.Stands tokens j) ∧
      ∀ u, Task.GoesOn g t u →
        ∃ i j, i < j ∧ t.state.Stands tokens i ∧ u.state.Stands tokens j := by
  refine ⟨wellFounded_awaits g, result_iff_step g, ?_, ?_⟩
  · -- what a parse records is what its outermost reading records, and redundant input behind that
    obtain ⟨s, ending, entered, tree, errors⟩ := parse_enter g entry tokens mode
    refine ⟨s, ending, entered, tree, ?_⟩
    rcases errors with ⟨found, rest, -, -, errors⟩ | ⟨-, errors⟩
    · exact errors ▸ List.prefix_append ..
    · exact errors ▸ List.prefix_rfl
  · -- each reading that is waited for stands at a place of the tokens
    intro t awaited
    have start : (Task.whole mode entry tokens).state.Stands tokens 0 := ⟨Nat.zero_le _, rfl⟩
    obtain ⟨i, -, stands, -⟩ := start.of_suffix (suffix_of_awaited awaited)
    constructor
    · -- and it ends at that place or behind it
      obtain ⟨j, later, ends, -⟩ := stands.of_suffix (suffix_of_result g t)
      exact ⟨i, j, later, stands, ends⟩
    · -- what goes on with a repetition stands behind it
      intro u goesOn
      obtain ⟨further, fewer⟩ := goesOn.shorter
      obtain ⟨j, -, ends, later⟩ := stands.of_suffix further
      exact ⟨i, j, later fewer, stands, ends⟩

/-- A selection behind a stray parenthesis. -/
def lateTokens : List Token := (Scan.ofSource ") \x7b a \x7d").tokens

set_option maxRecDepth 100000 in
/-- Behind a stray parenthesis the definitions of a document are resumed, at a later place. -/
theorem readings_end_and_advance_stray :
    ∃ t u, Relation.ReflTransGen (Task.Awaits Standard.grammar)
        (.whole .tree .document lateTokens) t ∧
      Task.GoesOn Standard.grammar t u ∧
      ∃ i j, i < j ∧ t.state.Stands lateTokens i ∧ u.state.Stands lateTokens j := by
  let c : Context := (Context.outermost .tree lateTokens).inside .document (.fixed false) []
  have resumed : (match Standard.grammar.plans.get .document with
      | .repetition false ahead _ after =>
        !c.sees ahead lateTokens && match c.recover ahead after { rest := lateTokens } with
          | .resume _ => true
          | .leave _ => false
      | _ => false) = true := by
    decide +kernel
  split at resumed
  · rename_i ahead body after plan
    obtain ⟨closed, searched⟩ := Bool.and_eq_true_iff.mp resumed
    cases recovery : c.recover ahead after { rest := lateTokens } with
    | leave s' =>
      rw [recovery] at searched
      cases searched
    | resume s' =>
      have awaited : Relation.ReflTransGen (Task.Awaits Standard.grammar)
          (.whole .tree .document lateTokens)
          ⟨255, c, Standard.grammar.plans.get .document, { rest := lateTokens }⟩ :=
        .single .call
      have goesOn : Task.GoesOn Standard.grammar
          ⟨255, c, Standard.grammar.plans.get .document, { rest := lateTokens }⟩
          ⟨255, c, Standard.grammar.plans.get .document, s'⟩ := by
        rw [plan]
        exact .resume (by simpa using closed) recovery
      obtain ⟨-, -, -, advances⟩ :=
        readings_end_and_advance Standard.grammar .document lateTokens .tree
      exact ⟨_, _, awaited, goesOn, (advances _ awaited).2 _ goesOn⟩
  · cases resumed

end GraphQL
