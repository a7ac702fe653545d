/-
  Two parses that go in lockstep.

  Several properties compare a parse with another one: without a tree, with more filed before it,
  with the places of the tokens forgotten.  In each case a map takes the states of the one to those
  of the other, and both make the same step.  `Lockstep` lists the single steps for which that must
  be shown.  Everything that is built on them then goes in lockstep too: the rounds of a repetition
  (`iterate_lockstep`) and whole plans (`Lockstep.read`), if entering a rule does.

  A parse never counts tokens except to see that a round took some.  So it is enough that the map
  keeps the number of tokens that are left; the tokens may be others.
-/
import GraphQL.Proofs.Run

namespace GraphQL

/-! ## Repetitions -/

/-- How a repetition goes on, from another state. -/
def Context.Recovery.map (φ : State → State) : Context.Recovery → Context.Recovery
  | .leave s => .leave (φ s)
  | .resume s => .resume (φ s)

section Repetitions

variable {c : Context}

/-- A repetition that opens reads its body. -/
theorem iterate_of_opens {ahead : Lookahead} {after : AfterRepetition}
    {body : State → State × Ending} {s : State} (opens : c.sees ahead s.rest = true) :
    c.iterate ahead after body s =
      match body s with
      | (s', .complete) =>
        if s'.rest.length < s.rest.length then c.iterate ahead after body s' else (s', .complete)
      | (s', ending) => (s', ending) := by
  refine (Context.iterate.eq_def ..).trans ((dif_pos opens).trans ?_)
  rcases body s with ⟨s', ending⟩
  cases ending <;> rfl

/-- A repetition that does not open goes on as its recovery says. -/
theorem iterate_of_closed {ahead : Lookahead} {after : AfterRepetition}
    {body : State → State × Ending} {s : State} (closed : ¬ c.sees ahead s.rest = true) :
    c.iterate ahead after body s =
      match c.recover ahead after s with
      | .leave s' => (s', .complete)
      | .resume s' => c.iterate ahead after body s' := by
  refine (Context.iterate.eq_def ..).trans ((dif_neg closed).trans ?_)
  split
  · rename_i h
    rw [h]
  · rename_i h
    rw [h]

end Repetitions

/-! ## Steps in lockstep -/

/-- Two places of two parses from which each single step goes in lockstep.  `φ` gives the state of
    the second parse from that of the first. -/
structure Lockstep (c c' : Context) (φ : State → State) : Prop where
  constant : c'.constant = c.constant
  length : ∀ s, (φ s).rest.length = s.rest.length
  sees : ∀ ahead s, c'.sees ahead (φ s).rest = c.sees ahead s.rest
  consume : ∀ kind follow s,
    c'.consume kind follow (φ s) = Prod.map φ id (c.consume kind follow s)
  recover : ∀ ahead after s, c'.recover ahead after (φ s) = (c.recover ahead after s).map φ
  record : ∀ (fault : String → Fault) s,
    c'.record (fault (c'.next (φ s).rest).text) (c'.next (φ s).rest) (φ s)
      = φ (c.record (fault (c.next s.rest).text) (c.next s.rest) s)

/-- The rounds of two repetitions go in lockstep if each reading of the body and each recovery
    does. -/
theorem iterate_lockstep {c c' : Context} {φ : State → State} {ahead : Lookahead}
    {after : AfterRepetition} {f f' : State → State × Ending}
    (length : ∀ s, (φ s).rest.length = s.rest.length)
    (sees : ∀ s, c'.sees ahead (φ s).rest = c.sees ahead s.rest)
    (recovered : ∀ s, c'.recover ahead after (φ s) = (c.recover ahead after s).map φ)
    (hf : ∀ s, f' (φ s) = Prod.map φ id (f s)) (s : State) :
    c'.iterate ahead after f' (φ s) = Prod.map φ id (c.iterate ahead after f s) := by
  fun_induction Context.iterate c ahead after f s with
  | case1 s opens s' body shorter ih =>
    -- a round that reads something: both loops go on, since both texts got shorter
    rw [iterate_of_opens ((sees s).trans opens), hf, body, ← ih]
    have shorter' : (φ s').rest.length < (φ s).rest.length := by rwa [length, length]
    exact if_pos shorter'
  | case2 s opens s' body same =>
    -- a round that reads nothing ends both loops
    rw [iterate_of_opens ((sees s).trans opens), hf, body]
    have same' : ¬ (φ s').rest.length < (φ s).rest.length := by rwa [length, length]
    exact if_neg same'
  | case3 s opens s' ending breaks body =>
    -- a round that ends with a mistake breaks off both loops
    rw [iterate_of_opens ((sees s).trans opens), hf, body]
    cases ending with
    | complete => exact absurd rfl breaks
    | stuck => rfl
    | aborted => rfl
  | case4 s closed s' recovery =>
    -- no round is seen: both loops recover in the same way, and leave or go on
    have closed' : ¬ c'.sees ahead (φ s).rest = true := by rwa [sees]
    rw [iterate_of_closed closed', recovered, recovery]
    rfl
  | case5 s closed s' recovery ih =>
    have closed' : ¬ c'.sees ahead (φ s).rest = true := by rwa [sees]
    rw [iterate_of_closed closed', recovered, recovery]
    exact ih

/-! ## Plans in lockstep -/

namespace Lockstep

variable {c c' : Context} {φ : State → State}
  {enter enter' : Rule → Bool → List TokenKind → State → State × Ending}

mutual

/-- A plan is read in lockstep if each step is and each entering of a rule. -/
theorem read (steps : Lockstep c c' φ)
    (henter : ∀ rule constant follow s,
      enter' rule constant follow (φ s) = Prod.map φ id (enter rule constant follow s)) :
    (p : Plan) → (s : State) → p.read c' enter' (φ s) = Prod.map φ id (p.read c enter s)
  | .token kind follow, s => steps.consume kind follow s
  | .call rule arg follow, s => by
    rw [Plan.read, Plan.read, steps.constant]
    exact henter rule (arg.resolve c.constant) follow s
  | .sequence items, s => steps.readRow henter items s
  | .optional ahead body, s => by
    rw [Plan.read, Plan.read, steps.sees]
    split
    · exact steps.read henter body s
    · rfl
  | .repetition nonempty ahead body after, s => by
    rw [Plan.read, Plan.read, steps.sees]
    split
    · -- no round is read where at least one has to be
      exact congrArg (·, Ending.stuck) (steps.record (.noIteration ahead.paths) s)
    · exact iterate_lockstep steps.length (steps.sees ahead) (steps.recover ahead after)
        (steps.read henter body) s
  | .choice branches, s => by
    rw [Plan.read, Plan.read, steps.readBranch henter branches s]
    cases Plan.readBranch c enter branches s with
    | some result => rfl
    | none =>
      exact congrArg (·, Ending.stuck) (steps.record (.noAlternative (Plan.pathsOf branches)) s)

/-- Plans in a row are read in lockstep. -/
theorem readRow (steps : Lockstep c c' φ)
    (henter : ∀ rule constant follow s,
      enter' rule constant follow (φ s) = Prod.map φ id (enter rule constant follow s)) :
    (ps : List Plan) → (s : State) →
      Plan.readRow c' enter' ps (φ s) = Prod.map φ id (Plan.readRow c enter ps s)
  | [], s => rfl
  | p :: rest, s => by
    rw [Plan.readRow, Plan.readRow, steps.read henter p s]
    rcases p.read c enter s with ⟨mid, ending⟩
    cases ending with
    | complete => exact steps.readRow henter rest mid
    | stuck => rfl
    | aborted => rfl

/-- The same branch of a choice is read, and in lockstep. -/
theorem readBranch (steps : Lockstep c c' φ)
    (henter : ∀ rule constant follow s,
      enter' rule constant follow (φ s) = Prod.map φ id (enter rule constant follow s)) :
    (branches : List (Gate × Lookahead × Plan)) → (s : State) →
      Plan.readBranch c' enter' branches (φ s)
        = (Plan.readBranch c enter branches s).map (Prod.map φ id)
  | [], s => rfl
  | (gate, ahead, body) :: rest, s => by
    rw [Plan.readBranch, Plan.readBranch, steps.sees, steps.constant]
    split
    · exact congrArg some (steps.read henter body s)
    · exact steps.readBranch henter rest s

end

end Lockstep

end GraphQL
