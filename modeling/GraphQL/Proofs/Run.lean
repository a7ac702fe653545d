/-
  What a reading can do.

  `Plan.read` is a function; what it does at one place depends on lookahead, on the tokens that are
  left and on four ways of going on after a mistake.  `Run` lists all of this as a relation: one
  constructor for each thing that can happen to a plan, with the state that it leaves and the way in
  which it ends.  A run over `n` levels may enter `n` more rules.

  Every reading is a run (`run_read`, `run_enter`).  So a property of all readings of all grammars
  is an induction over `Run`, and no later proof walks the reading functions again.  The one step
  that is still a function inside a constructor is `Context.recover`; `recover_cases` says what it
  can answer.
-/
import GraphQL.Parsing

namespace GraphQL

/-! ## Contexts of called rules -/

namespace Context

/-- The context in which the body of a called rule is read. -/
def inside (c : Context) (rule : Rule) (arg : ConstArg) (follow : List TokenKind) : Context :=
  { c with frames := ⟨rule, follow⟩ :: c.frames, constant := arg.resolve c.constant }

section Inside

variable (c : Context) (rule : Rule) (arg : ConstArg) (follow : List TokenKind)

@[simp] theorem mode_inside : (c.inside rule arg follow).mode = c.mode := rfl

@[simp] theorem endToken_inside : (c.inside rule arg follow).endToken = c.endToken := rfl

@[simp] theorem constant_inside :
    (c.inside rule arg follow).constant = arg.resolve c.constant := rfl

end Inside

/-- Records that the next token does not meet a demand. -/
def recordMismatch (c : Context) (kind : TokenKind) (s : State) : State :=
  c.record (.mismatch kind (c.next s.rest).text) (c.next s.rest) s

end Context

/-! ## What the single steps change -/

/-- The parts that are filed; without a tree, none. -/
def Mode.kept : Mode → List Part → List Part
  | .tree, parts => parts
  | .recognize, _ => []

@[simp] theorem Mode.kept_nil (mode : Mode) : mode.kept [] = [] := by cases mode <;> rfl

@[simp] theorem Mode.kept_append (mode : Mode) (ps qs : List Part) :
    mode.kept (ps ++ qs) = mode.kept ps ++ mode.kept qs := by cases mode <;> rfl

/-- A node that is filed at all is that of all its parts. -/
theorem Mode.kept_ofParts {mode : Mode} {parts filed : List Part} (h : filed = mode.kept parts)
    (label : Label) (rule : Rule) (recovered : Bool) :
    mode.kept [(label, .node (.ofParts rule filed recovered))]
      = mode.kept [(label, .node (.ofParts rule parts recovered))] := by
  cases mode with
  | tree => rw [h]; rfl
  | recognize => rfl

section Steps

variable (c : Context) (mode : Mode) (s inner : State)

@[simp] theorem rest_file (part : Part) : (s.file mode part).rest = s.rest := by
  cases mode <;> rfl

@[simp] theorem errors_file (part : Part) : (s.file mode part).errors = s.errors := by
  cases mode <;> rfl

@[simp] theorem parts_file (part : Part) :
    (s.file mode part).parts.toList = s.parts.toList ++ mode.kept [part] := by
  cases mode <;> simp [State.file, Mode.kept]

@[simp] theorem rest_take (kind : TokenKind) : (c.take kind s).rest = s.rest.tail := rfl

@[simp] theorem errors_take (kind : TokenKind) : (c.take kind s).errors = s.errors := by
  simp [Context.take]

/-- A token that is taken is filed under its demand, in the mode that files. -/
@[simp] theorem parts_take (kind : TokenKind) :
    (c.take kind s).parts.toList
      = s.parts.toList ++ c.mode.kept [(.token kind, .token (c.next s.rest))] := by
  simp [Context.take]

@[simp] theorem parts_record (fault : Fault) (found : Token) :
    (c.record fault found s).parts = s.parts := rfl

/-- A mistake is recorded behind the others, with its place and the calls that it was made in. -/
@[simp] theorem errors_record (fault : Fault) (found : Token) :
    (c.record fault found s).errors.toList
      = s.errors.toList ++ [⟨fault, found.span, (c.frames.map Frame.rule).reverse⟩] := by
  simp [Context.record]

@[simp] theorem rest_recordMismatch (kind : TokenKind) :
    (c.recordMismatch kind s).rest = s.rest := rfl

@[simp] theorem parts_recordMismatch (kind : TokenKind) :
    (c.recordMismatch kind s).parts = s.parts := rfl

/-- A demand that is not met is recorded at the next token. -/
@[simp] theorem errors_recordMismatch (kind : TokenKind) :
    (c.recordMismatch kind s).errors.toList
      = s.errors.toList ++ [⟨.mismatch kind (c.next s.rest).text, (c.next s.rest).span,
          (c.frames.map Frame.rule).reverse⟩] := by
  simp [Context.recordMismatch]

@[simp] theorem rest_close (rule : Rule) (recovered : Bool) :
    (c.close rule recovered s inner).rest = inner.rest := by
  simp [Context.close]

@[simp] theorem errors_close (rule : Rule) (recovered : Bool) :
    (c.close rule recovered s inner).errors = inner.errors := by
  simp [Context.close]

/-- A call files its node under its rule, in the mode that files. -/
@[simp] theorem parts_close (rule : Rule) (recovered : Bool) :
    (c.close rule recovered s inner).parts.toList
      = s.parts.toList
        ++ c.mode.kept [(.rule rule, .node (.ofParts rule inner.parts.toList recovered))] := by
  simp [Context.close]

/-- Refusing a token files nothing. -/
@[simp] theorem parts_recordUnexpected (expected : TokenKind) (found : Token) :
    (c.recordUnexpected expected found s).parts = s.parts := by
  unfold Context.recordUnexpected
  split <;> rfl

/-- Whatever was expected, the mistake is recorded at the token found and shows its text. -/
theorem errors_recordUnexpected (expected : TokenKind) (found : Token) :
    ∃ fault : Fault, fault.found = found.text ∧
      (c.recordUnexpected expected found s).errors.toList
        = s.errors.toList ++ [⟨fault, found.span, (c.frames.map Frame.rule).reverse⟩] := by
  unfold Context.recordUnexpected
  split
  · exact ⟨.redundantInput found.text, rfl, errors_record ..⟩
  · exact ⟨.mismatch expected found.text, rfl, errors_record ..⟩

end Steps

/-! ## Runs -/

/-- A run of a plan: from a state, with so many levels left, to a state and an ending. -/
inductive Run (g : Grammar) : (levels : Nat) → Context → Plan → State → State → Ending → Prop where
  /-- The next token meets the demand. -/
  | take {n c kind follow s} (met : (c.next s.rest).meets kind = true) :
      Run g n c (.token kind follow) s (c.take kind s) .complete
  /-- The missing token is put in. -/
  | insert {n c kind follow s} (unmet : (c.next s.rest).meets kind = false)
      (followed : (c.next s.rest).meetsSome follow = true) :
      Run g n c (.token kind follow) s
        ((c.recordMismatch kind s).file c.mode
          (.token kind, .token (.missing kind (c.next s.rest)))) .complete
  /-- The next token is left out. -/
  | delete {n c kind follow s} (unmet : (c.next s.rest).meets kind = false)
      (met : (c.second s.rest).meets kind = true) :
      Run g n c (.token kind follow) s
        (c.take kind { c.recordMismatch kind s with rest := s.rest.tail }) .complete
  /-- Neither helps. -/
  | miss {n c kind follow s} (unmet : (c.next s.rest).meets kind = false) :
      Run g n c (.token kind follow) s (c.recordMismatch kind s) .stuck
  /-- A rule is read to its end. -/
  | close {n c rule arg follow s inner}
      (body : Run g n (c.inside rule arg follow) (g.plans.get rule) { s with parts := #[] } inner
        .complete) :
      Run g (n + 1) c (.call rule arg follow) s
        ((c.inside rule arg follow).close rule false s inner) .complete
  /-- A rule is given up, and the reading goes on after it. -/
  | resync {n c rule arg follow s inner}
      (body : Run g n (c.inside rule arg follow) (g.plans.get rule) { s with parts := #[] } inner
        .stuck)
      (resumes : (c.inside rule arg follow).resumesAt
        ((c.inside rule arg follow).resyncPoint inner.rest) = true) :
      Run g (n + 1) c (.call rule arg follow) s
        ((c.inside rule arg follow).close rule true s
          { inner with rest := (c.inside rule arg follow).resyncPoint inner.rest }) .complete
  /-- A rule is given up together with the rule that called it. -/
  | unwind {n c rule arg follow s inner}
      (body : Run g n (c.inside rule arg follow) (g.plans.get rule) { s with parts := #[] } inner
        .stuck)
      (passes : (c.inside rule arg follow).resumesAt
        ((c.inside rule arg follow).resyncPoint inner.rest) = false) :
      Run g (n + 1) c (.call rule arg follow) s
        ((c.inside rule arg follow).close rule true s inner) .stuck
  /-- The whole parse ends inside a rule. -/
  | abort {n c rule arg follow s inner}
      (body : Run g n (c.inside rule arg follow) (g.plans.get rule) { s with parts := #[] } inner
        .aborted) :
      Run g (n + 1) c (.call rule arg follow) s
        ((c.inside rule arg follow).close rule true s inner) .aborted
  /-- No level is left to enter a rule. -/
  | tooDeep {c rule arg follow s} :
      Run g 0 c (.call rule arg follow) s
        (c.record (.tooDeep maxDepth rule (c.next s.rest).text) (c.next s.rest) s) .aborted
  /-- A row is at its end. -/
  | nil {n c s} : Run g n c (.sequence []) s s .complete
  /-- The first plan of a row is read, and then the others. -/
  | cons {n c p rest s mid s' ending} (first : Run g n c p s mid .complete)
      (others : Run g n c (.sequence rest) mid s' ending) :
      Run g n c (.sequence (p :: rest)) s s' ending
  /-- The first plan of a row cannot be read to its end. -/
  | cut {n c p rest s s' ending} (first : Run g n c p s s' ending) (cuts : ending ≠ .complete) :
      Run g n c (.sequence (p :: rest)) s s' ending
  /-- An optional part does not open. -/
  | skip {n c ahead body s} (closed : c.sees ahead s.rest = false) :
      Run g n c (.optional ahead body) s s .complete
  /-- An optional part is read. -/
  | enter {n c ahead body s s' ending} (opens : c.sees ahead s.rest = true)
      (inside : Run g n c body s s' ending) : Run g n c (.optional ahead body) s s' ending
  /-- A repetition that must not be empty does not open. -/
  | noRound {n c ahead body after s} (closed : c.sees ahead s.rest = false) :
      Run g n c (.repetition true ahead body after) s
        (c.record (.noIteration ahead.paths (c.next s.rest).text) (c.next s.rest) s) .stuck
  /-- A round takes tokens, and the repetition goes on. -/
  | round {n c nonempty ahead body after s mid s' ending} (opens : c.sees ahead s.rest = true)
      (first : Run g n c body s mid .complete) (shorter : mid.rest.length < s.rest.length)
      (others : Run g n c (.repetition false ahead body after) mid s' ending) :
      Run g n c (.repetition nonempty ahead body after) s s' ending
  /-- A round takes no token and is the last. -/
  | idle {n c nonempty ahead body after s s'} (opens : c.sees ahead s.rest = true)
      (first : Run g n c body s s' .complete) (same : ¬ s'.rest.length < s.rest.length) :
      Run g n c (.repetition nonempty ahead body after) s s' .complete
  /-- A round cannot be read to its end. -/
  | broken {n c nonempty ahead body after s s' ending} (opens : c.sees ahead s.rest = true)
      (first : Run g n c body s s' ending) (breaks : ending ≠ .complete) :
      Run g n c (.repetition nonempty ahead body after) s s' ending
  /-- A repetition that does not open is left. -/
  | leave {n c ahead body after s s'} (closed : c.sees ahead s.rest = false)
      (recovery : c.recover ahead after s = .leave s') :
      Run g n c (.repetition false ahead body after) s s' .complete
  /-- A repetition that does not open is resumed further on. -/
  | resume {n c ahead body after s mid s' ending} (closed : c.sees ahead s.rest = false)
      (recovery : c.recover ahead after s = .resume mid)
      (others : Run g n c (.repetition false ahead body after) mid s' ending) :
      Run g n c (.repetition false ahead body after) s s' ending
  /-- An open branch of a choice is read. -/
  | branch {n c branches gate ahead body s s' ending} (chosen : (gate, ahead, body) ∈ branches)
      (allowed : gate.allows c.constant = true) (opens : c.sees ahead s.rest = true)
      (inside : Run g n c body s s' ending) : Run g n c (.choice branches) s s' ending
  /-- No branch of a choice is open. -/
  | noBranch {n c branches s} :
      Run g n c (.choice branches) s
        (c.record (.noAlternative (Plan.pathsOf branches) (c.next s.rest).text) (c.next s.rest) s)
        .stuck

/-! ## Recovery in a repetition -/

/-- A repetition that does not open is left as it is; or the mistake is recorded at the next token,
    and tokens from that one on are left out. -/
theorem recover_cases {c : Context} {ahead : Lookahead} {after : AfterRepetition} {s : State}
    {r : Context.Recovery} (h : c.recover ahead after s = r) :
    r = .leave s ∨ ∃ expected skipped rest, s.rest = skipped ++ rest ∧
      (r = .leave (c.recordUnexpected expected (c.next s.rest) { s with rest }) ∨
        r = .resume (c.recordUnexpected expected (c.next s.rest) { s with rest })) := by
  unfold Context.recover at h
  split at h
  · -- nothing is awaited behind the repetition
    exact .inl h.symm
  · rename_i expected follow _
    simp only at h
    split at h
    · -- the next token is awaited or may follow, or the one behind it is awaited
      exact .inl h.symm
    · split at h
      · -- nothing is found to go on at
        exact .inl h.symm
      · -- the tokens up to the place found are skipped
        rename_i resumes rest hsearch
        obtain ⟨skipped, hs⟩ := Context.suffix_of_search hsearch
        refine .inr ⟨expected, skipped, rest, hs.symm, ?_⟩
        cases resumes with
        | true => exact .inr h.symm
        | false => exact .inl h.symm

/-- The state in which a repetition goes on or is left. -/
def Context.Recovery.state : Context.Recovery → State
  | .leave s => s
  | .resume s => s

/-- However a repetition goes on, it files nothing. -/
theorem parts_of_recover {c : Context} {ahead : Lookahead} {after : AfterRepetition} {s : State}
    {r : Context.Recovery} (h : c.recover ahead after s = r) : r.state.parts = s.parts := by
  obtain rfl | ⟨expected, skipped, rest, -, rfl | rfl⟩ := recover_cases h
  · rfl
  · exact parts_recordUnexpected ..
  · exact parts_recordUnexpected ..

/-! ## Every reading is a run -/

section Reading

variable {g : Grammar} {n : Nat} {c : Context}

/-- A single token. -/
theorem run_consume (kind : TokenKind) (follow : List TokenKind) (s : State) :
    Run g n c (.token kind follow) s (c.consume kind follow s).1 (c.consume kind follow s).2 := by
  unfold Context.consume
  by_cases met : (c.next s.rest).meets kind = true
  · simp only [met, if_true]
    exact .take met
  · have unmet : (c.next s.rest).meets kind = false := by simpa using met
    simp only [unmet, Bool.false_eq_true, if_false]
    by_cases followed : (c.next s.rest).meetsSome follow = true
    · simp only [followed, if_true]
      exact .insert unmet followed
    · rw [if_neg followed]
      by_cases second : (c.second s.rest).meets kind = true
      · rw [if_pos (show (c.second (c.record _ _ s).rest).meets kind = true from second)]
        exact .delete unmet second
      · rw [if_neg (show ¬ (c.second (c.record _ _ s).rest).meets kind = true from second)]
        exact .miss unmet

/-- The rounds of a repetition, if each reading of its body is a run. -/
theorem run_iterate {ahead : Lookahead} {body : Plan} {after : AfterRepetition}
    {f : State → State × Ending} (hf : ∀ s, Run g n c body s (f s).1 (f s).2) (s : State) :
    Run g n c (.repetition false ahead body after) s (c.iterate ahead after f s).1
      (c.iterate ahead after f s).2 := by
  fun_induction Context.iterate c ahead after f s with
  | case1 s opens s' hs shorter ih =>
    have first := hf s
    rw [hs] at first
    exact .round opens first shorter ih
  | case2 s opens s' hs same =>
    have first := hf s
    rw [hs] at first
    exact .idle opens first same
  | case3 s opens s' ending breaks hs =>
    have first := hf s
    rw [hs] at first
    exact .broken opens first breaks
  | case4 s closed s' recovery => exact .leave (by simpa using closed) recovery
  | case5 s closed s' recovery ih => exact .resume (by simpa using closed) recovery ih

/-- A repetition that opens may also be one that must not be empty. -/
theorem Run.nonempty {ahead : Lookahead} {body : Plan} {after : AfterRepetition} {s s' : State}
    {ending : Ending} (opens : c.sees ahead s.rest = true)
    (h : Run g n c (.repetition false ahead body after) s s' ending) :
    Run g n c (.repetition true ahead body after) s s' ending := by
  cases h with
  | round opens first shorter others => exact .round opens first shorter others
  | idle opens first same => exact .idle opens first same
  | broken opens first breaks => exact .broken opens first breaks
  | leave closed _ => rw [opens] at closed; cases closed
  | resume closed _ _ => rw [opens] at closed; cases closed

variable {enter : Rule → Bool → List TokenKind → State → State × Ending}

mutual

/-- A plan, if each entering of a rule is a run. -/
theorem run_read
    (hcall : ∀ rule arg follow s, Run g n c (.call rule arg follow) s
      (enter rule (arg.resolve c.constant) follow s).1
      (enter rule (arg.resolve c.constant) follow s).2) :
    (p : Plan) → (s : State) → Run g n c p s (p.read c enter s).1 (p.read c enter s).2
  | .token kind follow, s => run_consume kind follow s
  | .call rule arg follow, s => hcall rule arg follow s
  | .sequence items, s => run_readRow hcall items s
  | .optional ahead body, s => by
    rw [Plan.read]
    by_cases opens : c.sees ahead s.rest = true
    · -- the next tokens open the body
      rw [if_pos opens]
      exact .enter opens (run_read hcall body s)
    · rw [if_neg opens]
      exact .skip (by simpa using opens)
  | .repetition false ahead body after, s => by
    rw [Plan.read]
    exact run_iterate (run_read hcall body) s
  | .repetition true ahead body after, s => by
    rw [Plan.read]
    by_cases opens : c.sees ahead s.rest = true
    · simp only [opens, Bool.not_true, Bool.and_false, Bool.false_eq_true, if_false]
      exact .nonempty opens (run_iterate (run_read hcall body) s)
    · -- no round is read where at least one has to be
      have closed : c.sees ahead s.rest = false := by simpa using opens
      simp only [closed, Bool.not_false, Bool.and_self, if_true]
      exact .noRound closed
  | .choice branches, s => by
    rw [Plan.read]
    cases h : Plan.readBranch c enter branches s with
    | none => exact .noBranch
    | some result =>
      obtain ⟨gate, ahead, body, chosen, allowed, opens, inside⟩ :=
        run_readBranch hcall branches s result h
      exact .branch chosen allowed opens inside

/-- Plans in a row. -/
theorem run_readRow
    (hcall : ∀ rule arg follow s, Run g n c (.call rule arg follow) s
      (enter rule (arg.resolve c.constant) follow s).1
      (enter rule (arg.resolve c.constant) follow s).2) :
    (ps : List Plan) → (s : State) →
      Run g n c (.sequence ps) s (Plan.readRow c enter ps s).1 (Plan.readRow c enter ps s).2
  | [], s => .nil
  | p :: rest, s => by
    have first := run_read hcall p s
    rw [Plan.readRow]
    rcases h : p.read c enter s with ⟨mid, ending⟩
    rw [h] at first
    cases ending with
    | complete => exact .cons first (run_readRow hcall rest mid)
    | stuck => exact .cut first (nofun)
    | aborted => exact .cut first (nofun)

/-- The branch of a choice that is read. -/
theorem run_readBranch
    (hcall : ∀ rule arg follow s, Run g n c (.call rule arg follow) s
      (enter rule (arg.resolve c.constant) follow s).1
      (enter rule (arg.resolve c.constant) follow s).2) :
    (branches : List (Gate × Lookahead × Plan)) → (s : State) → (result : State × Ending) →
      Plan.readBranch c enter branches s = some result →
      ∃ gate ahead body, (gate, ahead, body) ∈ branches ∧ gate.allows c.constant = true ∧
        c.sees ahead s.rest = true ∧ Run g n c body s result.1 result.2
  | [], s, result, h => by rw [Plan.readBranch] at h; cases h
  | (gate, ahead, body) :: rest, s, result, h => by
    rw [Plan.readBranch] at h
    split at h
    · -- this alternative is the first whose gate is open and whose tokens are seen
      rename_i opens
      cases h
      obtain ⟨allowed, opens⟩ := Bool.and_eq_true_iff.mp opens
      exact ⟨gate, ahead, body, List.mem_cons_self, allowed, opens, run_read hcall body s⟩
    · -- one of the alternatives behind it is read
      obtain ⟨gate', ahead', body', chosen, others⟩ := run_readBranch hcall rest s result h
      exact ⟨gate', ahead', body', List.mem_cons_of_mem _ chosen, others⟩

end

/-- The end of a rule whose body is run. -/
theorem run_leave {rule : Rule} {arg : ConstArg} {follow : List TokenKind} {s inner : State}
    {ending : Ending}
    (body : Run g n (c.inside rule arg follow) (g.plans.get rule) { s with parts := #[] } inner
      ending) :
    Run g (n + 1) c (.call rule arg follow) s
      ((c.inside rule arg follow).leave rule s (inner, ending)).1
      ((c.inside rule arg follow).leave rule s (inner, ending)).2 := by
  cases ending with
  | complete => exact .close body
  | aborted => exact .abort body
  | stuck =>
    simp only [Context.leave]
    split
    · rename_i resumes
      exact .resync body resumes
    · rename_i passes
      exact .unwind body (by simpa using passes)

/-- Entering a rule, by induction on the levels that are left. -/
theorem run_enter (n : Nat) (c : Context) (rule : Rule) (arg : ConstArg) (follow : List TokenKind)
    (s : State) :
    Run g n c (.call rule arg follow) s
      (g.enter c.mode c.endToken n c.frames rule (arg.resolve c.constant) follow s).1
      (g.enter c.mode c.endToken n c.frames rule (arg.resolve c.constant) follow s).2 := by
  induction n generalizing c rule arg follow s with
  | zero => exact .tooDeep
  | succ n ih =>
    have body := run_read (ih (c.inside rule arg follow)) (g.plans.get rule)
      { s with parts := #[] }
    exact run_leave body

end Reading

/-- The reading of a plan by a grammar. -/
abbrev Grammar.reading (g : Grammar) (n : Nat) (c : Context) (plan : Plan) (s : State) :
    State × Ending := plan.read c (g.enter c.mode c.endToken n c.frames) s

theorem run_reading (g : Grammar) (n : Nat) (c : Context) (plan : Plan) (s : State) :
    Run g n c plan s (g.reading n c plan s).1 (g.reading n c plan s).2 :=
  run_read (fun rule arg follow s => run_enter n c rule arg follow s) plan s

section Reading

variable {g : Grammar} {n : Nat} {c : Context} {s : State}

/-- A row is read plan by plan. -/
theorem reading_row (p : Plan) (rest : List Plan) :
    g.reading n c (.sequence (p :: rest)) s =
      match g.reading n c p s with
      | (s', .complete) => g.reading n c (.sequence rest) s'
      | (s', ending) => (s', ending) := by
  rcases first : p.read c (g.enter c.mode c.endToken n c.frames) s with ⟨s', ending⟩
  cases ending <;> simp only [Grammar.reading, Plan.read, Plan.readRow, first]

/-- The reading of a repetition is its rounds, unless it must open and does not. -/
theorem reading_repetition {nonempty : Bool} {ahead : Lookahead} {body : Plan}
    {after : AfterRepetition} (fair : nonempty = false ∨ c.sees ahead s.rest = true) :
    g.reading n c (.repetition nonempty ahead body after) s
      = c.iterate ahead after (g.reading n c body) s := by
  have passes : ¬ (nonempty && !c.sees ahead s.rest) = true := by
    rcases fair with h | h <;> simp [h]
  rw [Grammar.reading, Plan.read, if_neg passes]

end Reading

/-! ## The mistakes of a run -/

/-- The second list goes on where the first ends, with something new if it must. -/
def Extends (must : Prop) (old new : Array SyntaxError) : Prop :=
  ∃ more, new.toList = old.toList ++ more ∧ (must → more ≠ [])

namespace Extends

variable {must other : Prop} {old mid new : Array SyntaxError}

theorem rfl (never : ¬ must) : Extends must old old :=
  ⟨[], (List.append_nil _).symm, fun h => absurd h never⟩

theorem one {e : SyntaxError} (h : new.toList = old.toList ++ [e]) : Extends must old new :=
  ⟨[e], h, nofun⟩

/-- Two additions are one, with something new if the second must bring it. -/
theorem trans (h₁ : Extends other old mid) (h₂ : Extends must mid new) : Extends must old new := by
  obtain ⟨more₁, hm, -⟩ := h₁
  obtain ⟨more₂, hn, needed⟩ := h₂
  refine ⟨more₁ ++ more₂, by rw [hn, hm, List.append_assoc], fun h hnil => needed h ?_⟩
  exact (List.append_eq_nil_iff.mp hnil).2

end Extends

/-- A repetition that does not open adds no mistake or one. -/
theorem extends_of_recover {c : Context} {ahead : Lookahead} {after : AfterRepetition} {s : State}
    {r : Context.Recovery} (h : c.recover ahead after s = r) :
    Extends False s.errors r.state.errors := by
  obtain rfl | ⟨expected, skipped, rest, -, h⟩ := recover_cases h
  · exact .rfl id
  · obtain ⟨fault, -, hf⟩ := errors_recordUnexpected c { s with rest } expected (c.next s.rest)
    obtain rfl | rfl := h <;> exact .one hf

section Errors

variable {g : Grammar} {n : Nat} {c : Context} {plan : Plan} {s s' : State} {ending : Ending}

/-- A run only adds mistakes, and one that does not end as it should adds at least one. -/
theorem Run.errors_extend (h : Run g n c plan s s' ending) :
    Extends (ending ≠ .complete) s.errors s'.errors := by
  induction h with
  | take => exact errors_take .. ▸ .rfl (· rfl)
  -- one mistake is recorded where it is met
  | insert => exact .one (by rw [errors_file, errors_recordMismatch])
  | delete => exact .one (by rw [errors_take]; exact errors_recordMismatch ..)
  | miss => exact .one (errors_recordMismatch ..)
  | tooDeep => exact .one (errors_record ..)
  | noRound => exact .one (errors_record ..)
  | noBranch => exact .one (errors_record ..)
  | nil => exact .rfl (· rfl)
  | skip => exact .rfl (· rfl)
  -- the errors of a call are those of its inside
  | close _ ih => simpa using ih
  | abort _ ih => simpa using ih
  | unwind _ _ ih => simpa using ih
  | enter _ _ ih => exact ih
  | idle _ _ _ ih => exact ih
  | broken _ _ _ ih => exact ih
  | branch _ _ _ _ ih => exact ih
  | cut _ _ ih => exact ih
  | resync _ _ ih =>
    -- the inside ended with a mistake, but the call ends well, so the second half asks for nothing
    obtain ⟨more, hm, -⟩ := ih
    exact ⟨more, by simpa using hm, nofun⟩
  | cons _ _ ih₁ ih₂ => exact ih₁.trans ih₂
  | round _ _ _ _ ih₁ ih₂ => exact ih₁.trans ih₂
  | leave _ recovery =>
    obtain ⟨more, hm, -⟩ := extends_of_recover recovery
    exact ⟨more, hm, fun cuts => absurd rfl cuts⟩
  | resume _ recovery _ ih => exact (extends_of_recover recovery).trans ih

end Errors

/-! ## Whole inputs -/

/-- The context around the entry rule. -/
def Context.outermost (mode : Mode) (tokens : List Token) : Context :=
  { mode, endToken := .endOf tokens, frames := [], constant := false }

/-- A parse enters its entry rule.  What is left after a reading that ended as it should is a
    mistake, recorded at the first token of it. -/
theorem parse_enter (g : Grammar) (entry : Rule) (tokens : List Token) (mode : Mode) :
    ∃ s ending,
      g.enter mode (.endOf tokens) maxDepth [] entry false [] { rest := tokens } = (s, ending) ∧
      (g.parse entry tokens mode).tree = Grammar.treeOf s ∧
      ((∃ found rest, ending = .complete ∧ s.rest = found :: rest ∧
          (g.parse entry tokens mode).errors
            = s.errors.toList ++ [⟨.redundantInput found.text, found.span, []⟩]) ∨
        ((ending = .complete → s.rest = []) ∧
          (g.parse entry tokens mode).errors = s.errors.toList)) := by
  simp only [Grammar.parse]
  rcases g.enter mode (.endOf tokens) maxDepth [] entry false [] { rest := tokens } with ⟨s, ending⟩
  refine ⟨s, ending, rfl, ?_⟩
  rcases s with ⟨rest, parts, errors⟩
  cases ending with
  | complete =>
    cases rest with
    -- all tokens were read
    | nil => exact ⟨rfl, .inr ⟨fun _ => rfl, rfl⟩⟩
    -- the next token is redundant
    | cons found rest => exact ⟨rfl, .inl ⟨found, rest, rfl, rfl, errors_record ..⟩⟩
  | stuck => exact ⟨rfl, .inr ⟨nofun, rfl⟩⟩
  | aborted => exact ⟨rfl, .inr ⟨nofun, rfl⟩⟩

/-- Entering the entry rule is a run. -/
theorem run_of_enter {g : Grammar} {entry : Rule} {tokens : List Token} {mode : Mode} {s : State}
    {ending : Ending}
    (entered : g.enter mode (.endOf tokens) maxDepth [] entry false [] { rest := tokens }
      = (s, ending)) :
    Run g maxDepth (.outermost mode tokens) (.call entry (.fixed false) []) { rest := tokens } s
      ending := by
  have run := run_enter (g := g) maxDepth (.outermost mode tokens) entry (.fixed false) []
    { rest := tokens }
  have same : g.enter mode (.endOf tokens) maxDepth [] entry ((ConstArg.fixed false).resolve false)
      [] { rest := tokens } = (s, ending) := entered
  simpa only [Context.outermost, same] using run

/-- A parse is a run of its entry rule. -/
theorem parse_cases (g : Grammar) (entry : Rule) (tokens : List Token) (mode : Mode) :
    ∃ s ending,
      Run g maxDepth (.outermost mode tokens) (.call entry (.fixed false) []) { rest := tokens }
        s ending ∧
      (g.parse entry tokens mode).tree = Grammar.treeOf s ∧
      ((∃ found rest, ending = .complete ∧ s.rest = found :: rest ∧
          (g.parse entry tokens mode).errors
            = s.errors.toList ++ [⟨.redundantInput found.text, found.span, []⟩]) ∨
        ((ending = .complete → s.rest = []) ∧
          (g.parse entry tokens mode).errors = s.errors.toList)) := by
  obtain ⟨s, ending, entered, others⟩ := parse_enter g entry tokens mode
  exact ⟨s, ending, run_of_enter entered, others⟩

/-- A rule that is entered files one node, however its reading ends. -/
theorem Run.exists_node {g : Grammar} {n : Nat} {c : Context} {rule : Rule} {arg : ConstArg}
    {follow : List TokenKind} {s s' : State} {ending : Ending}
    (h : Run g (n + 1) c (.call rule arg follow) s s' ending) :
    ∃ inner recovered, s'.parts.toList
      = s.parts.toList ++ c.mode.kept [(.rule rule, .node (.ofParts rule inner recovered))] := by
  cases h <;> exact ⟨_, _, parts_close ..⟩

/-- The tree of a finished reading is the one node that it has filed. -/
theorem treeOf_eq_some {s : State} {label : Label} {n : Node}
    (h : s.parts.toList = [(label, .node n)]) : Grammar.treeOf s = some n := by
  have filed : s.parts = #[(label, .node n)] := Array.toList_inj.mp h
  rw [Grammar.treeOf, filed]
  rfl

end GraphQL
