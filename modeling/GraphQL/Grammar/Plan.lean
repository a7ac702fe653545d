/-
  Productions with their choices made ready.

  A `Plan` has the shape of a production and holds, beside it, all that reading needs to know:

  * at each choice, the paths that open each alternative, to the least depth at which no
    alternative hides a later one (`Productions.resolve`);
  * at each optional part and each repetition, the paths that open it, to the least depth at which
    they do not hide what follows;
  * at each token and each call, the demands that may follow it within its rule, and at each
    repetition what stands after it.  These serve to go on after a mistake.

  All of this is settled within one rule.  A path that comes to the end of its rule is short, and
  is met by whatever the calling rule goes on with.  Gates are left aside: they only close
  alternatives at reading time.
-/
import GraphQL.Grammar.Opening

namespace GraphQL

/-! ## Plans -/

/-- The paths that show that a branch is due, none longer than the depth. -/
structure Lookahead where
  depth : Nat
  paths : List Path
deriving DecidableEq, Repr, Inhabited

/-- What stands after a repetition in its rule. -/
inductive AfterRepetition where
  /-- A token, and the demands that may follow it. -/
  | token (kind : TokenKind) (follow : List TokenKind)
  /-- Nothing: the rule ends. -/
  | ruleEnd
  /-- Something else. -/
  | other
deriving DecidableEq, Repr

/-- A production that is ready to be read by. -/
inductive Plan where
  | token (kind : TokenKind) (follow : List TokenKind)
  | call (rule : Rule) (arg : ConstArg) (follow : List TokenKind)
  | sequence (items : List Plan)
  | optional (ahead : Lookahead) (body : Plan)
  | repetition (nonempty : Bool) (ahead : Lookahead) (body : Plan) (after : AfterRepetition)
  | choice (branches : List (Gate × Lookahead × Plan))

instance : Inhabited Plan := ⟨.sequence []⟩

namespace Plan

mutual

/-- The greatest depth of a choice in a plan. -/
def depth : Plan → Nat
  | .token _ _ => 0
  | .call _ _ _ => 0
  | .sequence items => depthOfAll items
  | .optional ahead body => max ahead.depth body.depth
  | .repetition _ ahead body _ => max ahead.depth body.depth
  | .choice branches => depthOfBranches branches

/-- The greatest depth in some plans. -/
def depthOfAll : List Plan → Nat
  | [] => 0
  | p :: rest => max p.depth (depthOfAll rest)

/-- The greatest depth in and before the branches of a choice. -/
def depthOfBranches : List (Gate × Lookahead × Plan) → Nat
  | [] => 0
  | (_, ahead, p) :: rest => max (max ahead.depth p.depth) (depthOfBranches rest)

end

end Plan

/-! ## Telling branches apart -/

/-- Whether tokens that open `q` could all be taken for tokens that open `p`: `p` is no longer, and
    each of its demands can be met by a token that meets the demand of `q` at its place. -/
def Path.hides (p q : Path) : Bool :=
  p.length ≤ q.length && (p.zip q).all fun (a, b) => a.overlaps b

/-- Whether a path of one branch hides a path of another. -/
def hidesSome (earlier later : List Path) : Bool :=
  earlier.any fun p => later.any fun q => p.hides q

/-- The first two branches, by their places from `i` on, of which the earlier hides the later. -/
def firstConflict (i : Nat) : List (List Path) → Option (Nat × Nat)
  | [] => none
  | earlier :: rest =>
    match rest.findIdx? (hidesSome earlier) with
    | some j => some (i, i + 1 + j)
    | none => firstConflict (i + 1) rest

namespace Productions

/-- Looks one token deeper while branches cannot be told apart, at most `more` times. -/
def resolveFrom (g : Productions) (branches : List (List Production)) (depth : Nat) :
    (more : Nat) → Except (Nat × Nat) (Nat × List (List Path))
  | 0 =>
    let paths := branches.map (g.openings depth)
    match firstConflict 0 paths with
    | none => .ok (depth, paths)
    | some pair => .error pair
  | more + 1 =>
    let paths := branches.map (g.openings depth)
    match firstConflict 0 paths with
    | none => .ok (depth, paths)
    | some _ => g.resolveFrom branches (depth + 1) more

/-- The least depth at which no branch hides a later one, and the paths of that depth; or the first
    two branches that the greatest depth does not tell apart. -/
def resolve (g : Productions) (branches : List (List Production)) :
    Except (Nat × Nat) (Nat × List (List Path)) :=
  g.resolveFrom branches 1 (maxLookahead - 1)

/-- The lookahead that enters `inside` rather than going on with `next`. -/
def resolveOptional (g : Productions) (rule : Rule) (inside next : List Production) :
    Except GrammarError Lookahead :=
  match g.resolve [inside, next] with
  | .error _ => .error (.ambiguousOptional rule)
  | .ok (depth, paths) => .ok ⟨depth, paths.headD []⟩

/-- The lookaheads of the branches of a choice. -/
def resolveChoice (g : Productions) (rule : Rule) (branches : List (List Production)) :
    Except GrammarError (List Lookahead) :=
  match g.resolve branches with
  | .error (i, j) => .error (.ambiguousChoice rule (i + 1) (j + 1))
  | .ok (depth, paths) => .ok (paths.map (Lookahead.mk depth))

/-- What stands after a repetition, when `next` is what its rule goes on with. -/
def afterRepetition (g : Productions) : List Production → AfterRepetition
  | [] => .ruleEnd
  | .token kind :: rest => .token kind (g.firsts rest)
  | _ => .other

/-! ## Plans of productions -/

mutual

/-- The plan of a part of a rule that goes on with `next`. -/
def plan (g : Productions) (rule : Rule) (next : List Production) :
    Production → Except GrammarError Plan
  | .token kind => .ok (.token kind (g.firsts next))
  | .call callee arg => .ok (.call callee arg (g.firsts next))
  | .sequence items => do
    let items ← g.planRow rule next items
    return .sequence items
  | .optional body => do
    let ahead ← g.resolveOptional rule (body :: next) next
    let body ← g.plan rule next body
    return .optional ahead body
  | .many body => do
    let ahead ← g.resolveOptional rule (body :: .many body :: next) next
    let plan ← g.plan rule (.many body :: next) body
    return .repetition false ahead plan (g.afterRepetition next)
  | .atLeastOne body => do
    let ahead ← g.resolveOptional rule (body :: .many body :: next) next
    let plan ← g.plan rule (.many body :: next) body
    return .repetition true ahead plan (g.afterRepetition next)
  | .choice alternatives => do
    let aheads ← g.resolveChoice rule (alternatives.map fun (_, p) => p :: next)
    let branches ← g.planBranches rule next aheads alternatives
    return .choice branches

/-- The plans of productions in a row; each goes on with those after it. -/
def planRow (g : Productions) (rule : Rule) (next : List Production) :
    List Production → Except GrammarError (List Plan)
  | [] => .ok []
  | p :: rest => do
    let first ← g.plan rule (rest ++ next) p
    let others ← g.planRow rule next rest
    return first :: others

/-- The plans of the alternatives of a choice, each behind its lookahead. -/
def planBranches (g : Productions) (rule : Rule) (next : List Production) :
    List Lookahead → List (Gate × Production) →
      Except GrammarError (List (Gate × Lookahead × Plan))
  | ahead :: aheads, (gate, p) :: rest => do
    let first ← g.plan rule next p
    let others ← g.planBranches rule next aheads rest
    return (gate, ahead, first) :: others
  | _, _ => .ok []

end

/-- The plans of all rules; of several errors the first in the order of the rules counts. -/
def plans (g : Productions) : Except GrammarError (RuleTable Plan) :=
  RuleTable.ofFn? fun r => g.plan r [] (g.get r)

end Productions

end GraphQL
