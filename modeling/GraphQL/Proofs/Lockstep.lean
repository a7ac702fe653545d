/-
  Looking for mistakes alone finds the same mistakes.

  A parse that makes no tree goes in lockstep with one that does.  What has been filed is never
  looked at: every decision is made from the tokens that are left, and every mistake is recorded
  from them.  So of two states that differ in their parts only, both parses make the same step, and
  `State.refile` says by an equation what the one does in terms of what the other does: the state
  after reading without a tree is the state after reading with one, except that its parts are still
  those of the start (`lockstep_recognizing`, `enter_recognize`).
-/
import GraphQL.Proofs.Conformance
import GraphQL.Proofs.Simulation
import GraphQL.Proofs.StandardGrammar

namespace GraphQL

/-! ## States with other parts -/

/-- The state with other parts. -/
def State.refile (s : State) (parts : Array Part) : State := { s with parts }

/-- The state with its parts changed. -/
def State.mapParts (f : Array Part → Array Part) (s : State) : State :=
  { s with parts := f s.parts }

/-- How a reading has ended, with other parts. -/
def refiled (parts : Array Part) : State × Ending → State × Ending
  | (s, ending) => (s.refile parts, ending)

/-- How a repetition goes on, with other parts. -/
def Context.Recovery.refile (parts : Array Part) : Context.Recovery → Context.Recovery
  | .leave s => .leave (s.refile parts)
  | .resume s => .resume (s.refile parts)

/-- The same place in a parse that makes no tree. -/
def Context.recognizing (c : Context) : Context := { c with mode := .recognize }

/-! ## Single steps -/

section Steps

variable (c : Context) (s : State) (parts : Array Part)

/-- A lookahead does not ask for the mode. -/
theorem sees_recognizing (ahead : Lookahead) (rest : List Token) :
    c.recognizing.sees ahead rest = c.sees ahead rest := by
  have onPath : ∀ path rest, c.recognizing.onPath path rest = c.onPath path rest := by
    intro path
    induction path with
    | nil => exact fun _ => rfl
    | cons demand path ih =>
      intro rest
      simp only [Context.onPath, ih]
      rfl
  simp only [Context.sees, onPath]

/-- Nor does the search for a place to go on at. -/
theorem search_recognizing (ahead : Lookahead) (expected : TokenKind) (follows : List TokenKind)
    (rest : List Token) :
    c.recognizing.search ahead expected follows rest = c.search ahead expected follows rest := by
  induction rest with
  | nil =>
    simp only [Context.search, sees_recognizing]
    rfl
  | cons t rest ih =>
    simp only [Context.search, sees_recognizing, ih]
    rfl

/-- Filing in a parse without a tree does nothing. -/
theorem refile_file (mode : Mode) (part : Part) :
    (s.refile parts).file .recognize part = (s.file mode part).refile parts := by
  cases mode <;> rfl

/-- A token is taken in both modes, and filed in one. -/
theorem take_recognizing (kind : TokenKind) :
    c.recognizing.take kind (s.refile parts) = (c.take kind s).refile parts := by
  obtain ⟨mode, -, -, -⟩ := c
  cases mode <;> rfl

/-- A demand is met, skipped or refused alike in both modes. -/
theorem consume_recognizing (kind : TokenKind) (follow : List TokenKind) :
    c.recognizing.consume kind follow (s.refile parts)
      = refiled parts (c.consume kind follow s) := by
  have next : ∀ rest, c.recognizing.next rest = c.next rest := fun _ => rfl
  have second : ∀ rest, c.recognizing.second rest = c.second rest := fun _ => rfl
  have rest : (s.refile parts).rest = s.rest := rfl
  have recorded : ∀ fault found, c.recognizing.record fault found (s.refile parts)
      = (c.record fault found s).refile parts := fun _ _ => rfl
  simp only [Context.consume, next, second, rest, recorded]
  split
  · -- the token meets the demand
    rw [take_recognizing]
    rfl
  · split
    · -- what may follow is there, so a token is put in
      exact congrArg (·, Ending.complete) (refile_file _ parts c.mode _)
    · have skipped : ∀ t : State, (t.refile parts).rest = t.rest := fun _ => rfl
      simp only [skipped]
      split
      · -- the token behind meets the demand, so one is left out
        exact congrArg (·, Ending.complete)
          (take_recognizing c { c.record _ _ s with rest := s.rest.tail } parts kind)
      · -- neither
        rfl

/-- Recovery does not look at what has been filed, and files nothing. -/
theorem recover_mapParts (f : Array Part → Array Part) (ahead : Lookahead)
    (after : AfterRepetition) :
    c.recover ahead after (s.mapParts f) = (c.recover ahead after s).map (·.mapParts f) := by
  have rest : (s.mapParts f).rest = s.rest := rfl
  simp only [Context.recover, rest]
  split
  · -- nothing is awaited behind the repetition
    rfl
  · rename_i expected follow _
    split
    · -- the next token is awaited or may follow, or the one behind it is awaited
      rfl
    · split
      · -- nothing is found to go on at
        rfl
      · rename_i resumes rest _
        have recorded : ∀ found,
            c.recordUnexpected expected found { s.mapParts f with rest }
              = (c.recordUnexpected expected found { s with rest }).mapParts f := by
          intro found
          unfold Context.recordUnexpected
          split <;> rfl
        cases resumes with
        | true => exact congrArg Context.Recovery.resume (recorded _)
        | false => exact congrArg Context.Recovery.leave (recorded _)

/-- A repetition recovers alike in both modes. -/
theorem recover_recognizing (ahead : Lookahead) (after : AfterRepetition) :
    c.recognizing.recover ahead after (s.refile parts)
      = (c.recover ahead after s).refile parts := by
  have same : ∀ s, c.recognizing.recover ahead after s = c.recover ahead after s := by
    intro s
    have awaited : c.recognizing.awaited after = c.awaited after := by cases after <;> rfl
    simp only [Context.recover, awaited, search_recognizing]
    rfl
  rw [same]
  refine (recover_mapParts c s (fun _ => parts) ahead after).trans ?_
  cases c.recover ahead after s <;> rfl

/-- A node is filed in one mode only, and nothing else depends on it. -/
theorem close_recognizing (rule : Rule) (recovered : Bool) (inner : State)
    (inside : Array Part) :
    c.recognizing.close rule recovered (s.refile parts) (inner.refile inside)
      = (c.close rule recovered s inner).refile parts := by
  obtain ⟨mode, -, -, -⟩ := c
  cases mode <;> rfl

/-- A call ends alike in both modes. -/
theorem leave_recognizing (rule : Rule) (inside : Array Part) (result : State × Ending) :
    c.recognizing.leave rule (s.refile parts) (refiled inside result)
      = refiled parts (c.leave rule s result) := by
  have closes := close_recognizing c s parts rule
  obtain ⟨inner, ending⟩ := result
  cases ending with
  | complete => exact congrArg (·, Ending.complete) (closes false inner inside)
  | aborted => exact congrArg (·, Ending.aborted) (closes true inner inside)
  | stuck =>
    have point : c.recognizing.resyncPoint inner.rest = c.resyncPoint inner.rest := rfl
    have resumes : ∀ rest, c.recognizing.resumesAt rest = c.resumesAt rest := by
      intro rest
      cases rest <;> rfl
    have left : (inner.refile inside).rest = inner.rest := rfl
    simp only [refiled, Context.leave, left, point, resumes]
    split
    · -- the call goes on at the place where its own rule resumes
      exact congrArg (·, Ending.complete)
        (closes true { inner with rest := c.resyncPoint inner.rest } inside)
    · -- it does not resume there, and stays stuck
      exact congrArg (·, Ending.stuck) (closes true inner inside)

/-- A parse that makes no tree goes in lockstep with one that does. -/
theorem lockstep_recognizing : Lockstep c c.recognizing (·.refile parts) where
  constant := rfl
  length _ := rfl
  sees ahead s := sees_recognizing c ahead s.rest
  consume kind follow s := consume_recognizing c s parts kind follow
  recover ahead after s := by
    rw [recover_recognizing]
    cases c.recover ahead after s <;> rfl
  record _ _ := rfl

end Steps

/-! ## Rules -/

/-- Entering a rule goes in lockstep, by induction on the levels that are left. -/
theorem enter_recognize (g : Grammar) (mode : Mode) (endToken : Token) (levels : Nat)
    (frames : List Frame) (rule : Rule) (constant : Bool) (follow : List TokenKind) (s : State)
    (parts : Array Part) :
    g.enter .recognize endToken levels frames rule constant follow (s.refile parts)
      = refiled parts (g.enter mode endToken levels frames rule constant follow s) := by
  induction levels generalizing frames rule constant follow s parts with
  | zero => rfl
  | succ levels ih =>
    let inside := ⟨rule, follow⟩ :: frames
    let c : Context := { mode, endToken, frames := inside, constant }
    -- the body of a rule starts with no parts in either parse
    have body : (g.plans.get rule).read c.recognizing (g.enter .recognize endToken levels inside)
        { s with parts := #[] }
        = refiled #[] ((g.plans.get rule).read c (g.enter mode endToken levels inside)
            { s with parts := #[] }) :=
      (lockstep_recognizing c #[]).read (fun r b f s => ih inside r b f s #[]) (g.plans.get rule)
        { s with parts := #[] }
    rw [Grammar.enter, Grammar.enter]
    exact (congrArg (c.recognizing.leave rule (s.refile parts)) body).trans
      (leave_recognizing c s parts rule #[] _)

/-! ## Whole inputs -/

/-- A parse that only looks for mistakes is one that makes a tree, without the tree. -/
theorem Grammar.parse_recognize (g : Grammar) (entry : Rule) (tokens : List Token) :
    g.parse entry tokens .recognize = { g.parse entry tokens with tree := none } := by
  have lockstep : g.enter .recognize (.endOf tokens) maxDepth [] entry false [] { rest := tokens }
      = refiled #[] (g.enter .tree (.endOf tokens) maxDepth [] entry false [] { rest := tokens }) :=
    enter_recognize g .tree _ maxDepth [] entry false [] { rest := tokens } #[]
  rw [Grammar.parse, Grammar.parse, lockstep]
  rcases g.enter .tree _ maxDepth [] entry false [] { rest := tokens } with ⟨⟨rest, _, _⟩, ending⟩
  cases ending <;> cases rest <;> rfl

/-- A parse that only looks for mistakes finds the very mistakes of one that makes a tree.  It gives
    no tree, and the other always gives one, also where rules are nested too deep. -/
theorem recognize_agrees {d : Draft} {g : Grammar} (finished : d.finish = .ok g) (entry : Rule)
    (tokens : List Token) :
    (g.parse entry tokens .recognize).errors = (g.parse entry tokens .tree).errors ∧
      (g.parse entry tokens .recognize).tree = none ∧
      ∃ tree, (g.parse entry tokens .tree).tree = some tree := by
  obtain ⟨tree, htree, -⟩ := exists_conforming_tree finished entry tokens
  have lockstep : g.enter .recognize (.endOf tokens) maxDepth [] entry false [] { rest := tokens }
      = refiled #[] (g.enter .tree (.endOf tokens) maxDepth [] entry false [] { rest := tokens }) :=
    enter_recognize g .tree _ maxDepth [] entry false [] { rest := tokens } #[]
  refine ⟨?_, ?_, tree, htree⟩
  · rw [Grammar.parse, Grammar.parse, lockstep]
    rcases g.enter .tree _ maxDepth [] entry false [] { rest := tokens } with ⟨⟨rest, _, _⟩, ending⟩
    cases ending <;> cases rest <;> rfl
  · rw [Grammar.parse, lockstep]
    rcases g.enter .tree _ maxDepth [] entry false [] { rest := tokens } with ⟨⟨rest, _, _⟩, ending⟩
    cases ending <;> cases rest <;> rfl

/-- Lists within lists, opened deeper than rules may nest. -/
def nestedTokens : List Token :=
  List.replicate 130 { kind := .punctuator .leftBracket, text := "[" }

set_option maxRecDepth 100000 in
/-- Where rules are nested too deep, both parses record that one mistake. -/
theorem recognize_agrees_nested :
    Standard.draft.finish = .ok Standard.grammar ∧
      (Standard.grammar.parse .value nestedTokens .tree).errors.map SyntaxError.fault
        = [.tooDeep maxDepth .value "["] ∧
      (Standard.grammar.parse .value nestedTokens .recognize).errors
        = (Standard.grammar.parse .value nestedTokens .tree).errors ∧
      (Standard.grammar.parse .value nestedTokens .recognize).tree = none ∧
      ∃ tree, (Standard.grammar.parse .value nestedTokens .tree).tree = some tree := by
  have deep : (Standard.grammar.parse .value nestedTokens .tree).errors.map SyntaxError.fault
      = [.tooDeep maxDepth .value "["] := by
    decide +kernel
  exact ⟨Standard.finish_eq, deep, recognize_agrees Standard.finish_eq .value nestedTokens⟩

end GraphQL
