/-
  Reading tokens by a grammar.

  A parse walks the plans of a grammar over the tokens that are left.  It never goes back: each
  choice is made from the few tokens ahead, and each mistake is recorded where it is met.  Then the
  parse goes on in the first of these ways that applies:

  * a missing token is put in, if the token found may follow it within its rule;
  * one token is left out, if the next one is the one asked for;
  * a repetition leaves tokens out up to one that opens it again or ends it;
  * the rule that is being read is given up (`Ending.stuck`).  Tokens are left out up to the first
    that some active rule can go on with, and the reading continues after the innermost active rule
    that this token may follow.  The end of the input may follow every rule.

  Rules nest `maxDepth` deep at most; beyond that the whole parse ends (`Ending.aborted`).

  The walk is total for four reasons, one for each level.  A plan is walked along its structure.
  Entering a rule uses up one level of the depth that is left.  A round of a repetition must leave
  fewer tokens than it found, or the repetition ends.  And a repetition that leaves out tokens to be
  opened again has left out at least one, because it was not open where it stopped
  (`Context.rest_lt_of_recover`).
-/
import GraphQL.Grammar.Draft
import GraphQL.SyntaxError
import GraphQL.Tree

namespace GraphQL

/-- How deep rules may nest. -/
def maxDepth : Nat := 256

/-! ## States -/

/-- Whether a parse makes a tree or only looks for mistakes. -/
inductive Mode where
  | tree | recognize
deriving DecidableEq, Repr

/-- A rule that is being read, with the demands that may follow it in the rule that called it. -/
structure Frame where
  rule : Rule
  follow : List TokenKind
deriving DecidableEq, Repr

/-- What stays the same while the body of one rule is read. -/
structure Context where
  mode : Mode
  /-- What stands behind the last token. -/
  endToken : Token
  /-- The active rules, innermost first. -/
  frames : List Frame
  /-- Whether only constants may stand here. -/
  constant : Bool

/-- What changes while the body of one rule is read. -/
structure State where
  /-- The tokens that are left. -/
  rest : List Token
  /-- What the rule has read so far. -/
  parts : Array Part := #[]
  errors : Array SyntaxError := #[]

/-- How the reading of a plan ends. -/
inductive Ending where
  /-- It is read, perhaps with mistakes that were mended on the way. -/
  | complete
  /-- It cannot be read on; the mistake is recorded. -/
  | stuck
  /-- Nothing is to be read on. -/
  | aborted
deriving DecidableEq, Repr

/-- Whether a token meets one of some demands. -/
def Token.meetsSome (t : Token) (demands : List TokenKind) : Bool := demands.any t.meets

namespace State

/-- Files a part, if a tree is made. -/
def file (mode : Mode) (part : Part) (s : State) : State :=
  match mode with
  | .tree => { s with parts := s.parts.push part }
  | .recognize => s

end State

namespace Context

/-! ## Looking ahead -/

/-- The next token. -/
def next (c : Context) (rest : List Token) : Token := rest.headD c.endToken

/-- The token after the next one. -/
def second (c : Context) (rest : List Token) : Token := c.next rest.tail

/-- Whether the tokens ahead meet the demands of a path. -/
def onPath (c : Context) : Path → List Token → Bool
  | [], _ => true
  | demand :: path, rest => (c.next rest).meets demand && c.onPath path rest.tail

/-- Whether the tokens ahead open what a lookahead stands for. -/
def sees (c : Context) (ahead : Lookahead) (rest : List Token) : Bool :=
  ahead.paths.any fun path => c.onPath path rest

/-! ## Recording mistakes -/

/-- Records a fault at a token. -/
def record (c : Context) (fault : Fault) (found : Token) (s : State) : State :=
  let error : SyntaxError :=
    { fault, span := found.span, stack := (c.frames.map Frame.rule).reverse }
  { s with errors := s.errors.push error }

/-- Records that `found` stands where `expected` was due.  Where only the end of the document may
    follow, whatever stands there is redundant. -/
def recordUnexpected (c : Context) (expected : TokenKind) (found : Token) (s : State) : State :=
  if expected = .endOfInput then c.record (.redundantInput found.text) found s
  else c.record (.mismatch expected found.text) found s

/-! ## Single tokens -/

/-- Takes the next token under a demand. -/
def take (c : Context) (demand : TokenKind) (s : State) : State :=
  { s.file c.mode (.token demand, .token (c.next s.rest)) with rest := s.rest.tail }

/-- Reads one token.  One that does not meet the demand is recorded; then the missing token is put
    in, or the token found is left out, or the reading is stuck. -/
def consume (c : Context) (demand : TokenKind) (follow : List TokenKind) (s : State) :
    State × Ending :=
  let found := c.next s.rest
  if found.meets demand then (c.take demand s, .complete)
  else
    let s := c.record (.mismatch demand found.text) found s
    if found.meetsSome follow then
      (s.file c.mode (.token demand, .token (.missing demand found)), .complete)
    else if (c.second s.rest).meets demand then
      (c.take demand { s with rest := s.rest.tail }, .complete)
    else (s, .stuck)

/-! ## Going on after a mistake -/

/-- The demands that some active rule can go on with. -/
def follows (c : Context) : List TokenKind := distinct (c.frames.flatMap Frame.follow)

/-- The tokens from the first that some active rule can go on with. -/
def resyncPoint (c : Context) (rest : List Token) : List Token :=
  let follows := c.follows
  rest.dropWhile fun t => !t.meetsSome follows

/-- Whether the innermost rule is the one after which tokens are read on. -/
def resumesAt (c : Context) : List Token → Bool
  | [] => true
  | t :: _ =>
    match c.frames with
    | [] => false
    | frame :: _ => t.meetsSome frame.follow

/-- What is due after a repetition, and the demands that may follow that.  Where the repetition ends
    its rule nothing is known, except that the whole document ends after the outermost rule. -/
def awaited (c : Context) : AfterRepetition → Option (TokenKind × List TokenKind)
  | .token kind follow => some (kind, follow)
  | .ruleEnd => if c.frames.length = 1 then some (.endOfInput, []) else none
  | .other => none

/-- How a repetition goes on after a token that does not open it. -/
inductive Recovery where
  | leave (s : State)
  | resume (s : State)

/-- Looks along the tokens for the one awaited or for one that opens the repetition again; the
    answer says which, and where.  The search ends where an active rule can go on. -/
def search (c : Context) (ahead : Lookahead) (expected : TokenKind) (follows : List TokenKind)
    (rest : List Token) : Option (Bool × List Token) :=
  if (c.next rest).meets expected then some (false, rest)
  else if c.sees ahead rest then some (true, rest)
  else
    match rest with
    | [] => none
    | t :: rest =>
      if t.meetsSome follows then none else c.search ahead expected follows rest

/-- Decides how a repetition goes on.  It is left in peace if the token awaited can be read or
    mended in its place. -/
def recover (c : Context) (ahead : Lookahead) (after : AfterRepetition) (s : State) : Recovery :=
  match c.awaited after with
  | none => .leave s
  | some (expected, follow) =>
    let found := c.next s.rest
    if found.meets expected || found.meetsSome follow || (c.second s.rest).meets expected then
      .leave s
    else
      match c.search ahead expected c.follows s.rest with
      | none => .leave s
      | some (resumes, rest) =>
        let s := c.recordUnexpected expected found { s with rest }
        if resumes then .resume s else .leave s

theorem rest_recordUnexpected (c : Context) (expected : TokenKind) (found : Token) (s : State) :
    (c.recordUnexpected expected found s).rest = s.rest := by
  unfold recordUnexpected
  split <;> rfl

/-- The search stops at a place behind its start, or at its start. -/
theorem suffix_of_search {c : Context} {ahead : Lookahead} {expected : TokenKind}
    {follows : List TokenKind} {rest rest' : List Token} {resumes : Bool}
    (h : c.search ahead expected follows rest = some (resumes, rest')) : rest' <:+ rest := by
  induction rest with
  | nil =>
    unfold search at h
    split at h
    · cases h; exact List.suffix_rfl
    · split at h
      · cases h; exact List.suffix_rfl
      · cases h
  | cons t rest ih =>
    unfold search at h
    split at h
    · -- the demand behind the repetition is met
      cases h; exact List.suffix_rfl
    · split at h
      · -- a further round begins
        cases h; exact List.suffix_rfl
      · simp only at h
        split at h
        · -- the token belongs to a rule outside, or the search goes on behind it
          cases h
        · exact (ih h).trans (List.suffix_cons t rest)

/-- Where the search says that the repetition is open again, it is. -/
theorem sees_of_search {c : Context} {ahead : Lookahead} {expected : TokenKind}
    {follows : List TokenKind} {rest rest' : List Token}
    (h : c.search ahead expected follows rest = some (true, rest')) :
    c.sees ahead rest' = true := by
  -- the search ends with a round only where it sees one
  induction rest with
  | nil =>
    unfold search at h
    split at h
    · cases h
    · split at h
      · rename_i hs; cases h; exact hs
      · cases h
  | cons t rest ih =>
    unfold search at h
    split at h
    · cases h
    · split at h
      · rename_i hs; cases h; exact hs
      · simp only at h
        split at h
        · cases h
        · exact ih h

/-- A repetition that is not open and is resumed has left out a token. -/
theorem rest_lt_of_recover {c : Context} {ahead : Lookahead} {after : AfterRepetition}
    {s s' : State} (closed : ¬ c.sees ahead s.rest = true)
    (h : c.recover ahead after s = .resume s') : s'.rest.length < s.rest.length := by
  unfold recover at h
  split at h
  · cases h
  · simp only at h
    split at h
    · cases h
    · split at h
      · cases h
      · rename_i resumes rest hsearch
        split at h
        · -- a further round was found, and not where the parse stands, for there none is seen
          rename_i hres
          cases h
          rw [rest_recordUnexpected]
          subst hres
          have hsuffix := suffix_of_search hsearch
          refine Nat.lt_of_le_of_ne hsuffix.length_le fun hlen => closed ?_
          exact hsuffix.eq_of_length hlen ▸ sees_of_search hsearch
        · cases h

/-! ## Repetitions -/

/-- The rounds of a repetition.  A round that takes no token has recorded a mistake and is the
    last. -/
def iterate (c : Context) (ahead : Lookahead) (after : AfterRepetition)
    (body : State → State × Ending) (s : State) : State × Ending :=
  if _opens : c.sees ahead s.rest = true then
    match body s with
    | (s', .complete) =>
      if s'.rest.length < s.rest.length then c.iterate ahead after body s' else (s', .complete)
    | (s', ending) => (s', ending)
  else
    match _recovery : c.recover ahead after s with
    | .leave s' => (s', .complete)
    | .resume s' => c.iterate ahead after body s'
termination_by s.rest.length
decreasing_by
  · assumption
  · exact rest_lt_of_recover _opens _recovery

end Context

/-! ## Plans -/

namespace Plan

/-- The paths of all branches of a choice. -/
def pathsOf (branches : List (Gate × Lookahead × Plan)) : List Path :=
  branches.flatMap fun (_, ahead, _) => ahead.paths

mutual

/-- Reads a plan.  `enter` reads a rule, given the flag and the demands that may follow it. -/
def read (c : Context) (enter : Rule → Bool → List TokenKind → State → State × Ending) :
    Plan → State → State × Ending
  | .token kind follow, s => c.consume kind follow s
  | .call rule arg follow, s => enter rule (arg.resolve c.constant) follow s
  | .sequence items, s => readRow c enter items s
  | .optional ahead body, s =>
    if c.sees ahead s.rest then body.read c enter s else (s, .complete)
  | .repetition nonempty ahead body after, s =>
    if nonempty && !c.sees ahead s.rest then
      let found := c.next s.rest
      (c.record (.noIteration ahead.paths found.text) found s, .stuck)
    else c.iterate ahead after (body.read c enter) s
  | .choice branches, s =>
    match readBranch c enter branches s with
    | some result => result
    | none =>
      let found := c.next s.rest
      (c.record (.noAlternative (pathsOf branches) found.text) found s, .stuck)

/-- Reads plans in a row, up to the first that cannot be read. -/
def readRow (c : Context) (enter : Rule → Bool → List TokenKind → State → State × Ending) :
    List Plan → State → State × Ending
  | [], s => (s, .complete)
  | p :: rest, s =>
    match p.read c enter s with
    | (s', .complete) => readRow c enter rest s'
    | (s', ending) => (s', ending)

/-- Reads the first branch whose gate is open and whose lookahead is seen, if there is one. -/
def readBranch (c : Context) (enter : Rule → Bool → List TokenKind → State → State × Ending) :
    List (Gate × Lookahead × Plan) → State → Option (State × Ending)
  | [], _ => none
  | (gate, ahead, body) :: rest, s =>
    if gate.allows c.constant && c.sees ahead s.rest then some (body.read c enter s)
    else readBranch c enter rest s

end

end Plan

/-! ## Rules -/

namespace Context

/-- Ends the reading of the innermost rule.  `outer` is the state in which the rule was entered; its
    node becomes a part of the rule that called it. -/
def close (c : Context) (rule : Rule) (recovered : Bool) (outer inner : State) : State :=
  { outer with rest := inner.rest, errors := inner.errors }.file c.mode
    (.rule rule, .node (.ofParts rule inner.parts.toList recovered))

/-- Ends the reading of the innermost rule as its body ended.  A stuck rule is given up; the reading
    goes on after it if it is the one that the next usable token may follow. -/
def leave (c : Context) (rule : Rule) (outer : State) : State × Ending → State × Ending
  | (inner, .complete) => (c.close rule false outer inner, .complete)
  | (inner, .stuck) =>
    let rest := c.resyncPoint inner.rest
    if c.resumesAt rest then (c.close rule true outer { inner with rest }, .complete)
    else (c.close rule true outer inner, .stuck)
  | (inner, .aborted) => (c.close rule true outer inner, .aborted)

end Context

namespace Grammar

/-- Reads a rule; `levels` more may be entered. -/
def enter (g : Grammar) (mode : Mode) (endToken : Token) :
    (levels : Nat) → List Frame → Rule → Bool → List TokenKind → State → State × Ending
  | 0, frames, rule, constant, _, s =>
    let c : Context := { mode, endToken, frames, constant }
    let found := c.next s.rest
    (c.record (.tooDeep maxDepth rule found.text) found s, .aborted)
  | levels + 1, frames, rule, constant, follow, s =>
    let frames := ⟨rule, follow⟩ :: frames
    let c : Context := { mode, endToken, frames, constant }
    c.leave rule s <|
      (g.plans.get rule).read c (g.enter mode endToken levels frames) { s with parts := #[] }

/-! ## Whole inputs -/

/-- What reading tokens gives. -/
structure Parse where
  tree : Option Node
  errors : List SyntaxError

/-- The node that a finished reading has filed. -/
def treeOf (s : State) : Option Node := s.parts[0]?.bind fun (_, e) => e.node?

/-- Reads tokens as one rule; tokens that are left over are a mistake. -/
def parse (g : Grammar) (entry : Rule) (tokens : List Token) (mode : Mode := .tree) : Parse :=
  let endToken := Token.endOf tokens
  let (s, ending) := g.enter mode endToken maxDepth [] entry false [] { rest := tokens }
  let s :=
    match ending, s.rest with
    | .complete, found :: _ =>
      let c : Context := { mode, endToken, frames := [], constant := false }
      c.record (.redundantInput found.text) found s
    | _, _ => s
  { tree := treeOf s, errors := s.errors.toList }

end Grammar

end GraphQL
