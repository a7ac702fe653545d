/-
  What a table of productions must satisfy before its choices can be looked at.

  Three analyses stand here.  `nullableRules` finds the rules that can match no token, as the least
  fixed point of one round over the table; as many rounds as there are rules reach it.
  `findLeftRecursion` looks for a rule that can call itself before it has matched a token, depth
  first in the order of `Rule.all`, and returns the first cycle that it closes.  `findEmptyRepetition`
  looks for a repetition of what can match nothing.  A table that passes both searches is `sound`:
  its openings (`GraphQL.Grammar.Opening`) are finite in number.

  `GrammarError` lists all that can be wrong with a grammar, with its wording.
-/
import GraphQL.Grammar.Production

namespace GraphQL

/-- The most tokens that a choice may look at. -/
def maxLookahead : Nat := 3

/-! ## Errors -/

/-- Why a grammar is refused. -/
inductive GrammarError where
  /-- A production is given for a name that is no rule. -/
  | unknownRule (name : String)
  /-- A rule has no production. -/
  | undefinedRule (rule : Rule)
  /-- A rule is given a production twice. -/
  | duplicateRule (rule : Rule)
  /-- A rule can call itself before a token is matched; the cycle begins and ends with it. -/
  | leftRecursion (cycle : List Rule)
  /-- A repetition repeats what can match nothing. -/
  | emptyRepetition (rule : Rule)
  /-- Two alternatives, counted from one, cannot be told apart. -/
  | ambiguousChoice (rule : Rule) (first second : Nat)
  /-- An optional part cannot be told from what follows it. -/
  | ambiguousOptional (rule : Rule)
deriving DecidableEq, Repr

/-- The wording of a grammar error. -/
def GrammarError.message : GrammarError → String
  | .unknownRule name => s!"cannot override unknown rule `{name}`"
  | .undefinedRule rule => s!"rule `{rule}` has no production"
  | .duplicateRule rule => s!"rule `{rule}` is defined more than once"
  | .leftRecursion cycle => "left recursion: " ++ " -> ".intercalate (cycle.map Rule.name)
  | .emptyRepetition rule => s!"rule `{rule}` repeats a production that can match empty input"
  | .ambiguousChoice rule first second =>
    s!"alternatives {first} and {second} of rule `{rule}` are ambiguous "
      ++ s!"within {maxLookahead} tokens of lookahead"
  | .ambiguousOptional rule =>
    s!"optional block in rule `{rule}` is ambiguous with what follows it "
      ++ s!"within {maxLookahead} tokens of lookahead"

namespace Productions

/-! ## Nullable rules -/

/-- One round: the rules that can match nothing if exactly the known ones can. -/
def nullableRound (g : Productions) (known : RuleTable Bool) : RuleTable Bool :=
  .ofFn fun r => (g.get r).nullable known.get

/-- The rules that can match nothing. -/
def nullableRules (g : Productions) : RuleTable Bool :=
  Nat.repeat g.nullableRound Rule.count (.ofFn fun _ => false)

/-! ## Left recursion -/

/-- The rules that are not on a stack. -/
def off (stack : List Rule) : List Rule := Rule.all.filter fun r => !stack.contains r

/-- Each further rule on the stack leaves fewer rules off it, so the walk ends. -/
theorem length_off_cons_lt {stack : List Rule} {r : Rule} (h : ¬ stack.contains r = true) :
    (off (r :: stack)).length < (off stack).length := by
  have split : off (r :: stack) = (off stack).filter fun x => !(x == r) := by
    simp only [off, List.filter_filter]
    congr 1
    funext x
    by_cases hx : x = r <;> simp [hx]
  rw [split]
  refine List.length_filter_lt_length_iff_exists.mpr ⟨r, ?_, by simp⟩
  simp only [off, List.mem_filter, Bool.not_eq_true']
  exact ⟨Rule.mem_all r, by simpa using h⟩

/-- Walks the left calls depth first.  `stack` holds the rules being looked at, innermost first, and
    `done` those from which no cycle is reached.  Each rule that is entered leaves fewer rules off
    the stack, so the walk ends. -/
def walkLeftCalls (calls : Rule → List Rule) (todo stack done : List Rule) :
    Except (List Rule) (List Rule) :=
  match todo with
  | [] => .ok done
  | r :: rest =>
    if _h : stack.contains r then
      .error (r :: (stack.takeWhile (· != r)).reverse ++ [r])
    else if done.contains r then walkLeftCalls calls rest stack done
    else
      match walkLeftCalls calls (calls r) (r :: stack) done with
      | .error cycle => .error cycle
      | .ok done => walkLeftCalls calls rest stack (r :: done)
termination_by ((off stack).length, todo.length)
decreasing_by
  · exact Prod.Lex.right _ (by simp)
  · exact Prod.Lex.left _ _ (length_off_cons_lt _h)
  · exact Prod.Lex.right _ (by simp)

/-- The first cycle of left calls, if there is one. -/
def findLeftRecursion (g : Productions) (nullable : Rule → Bool) : Option (List Rule) :=
  let calls := RuleTable.ofFn fun r => (g.get r).leftCalls nullable
  match walkLeftCalls calls.get Rule.all [] [] with
  | .error cycle => some cycle
  | .ok _ => none

/-! ## Empty repetitions -/

/-- The first rule with a repetition of what can match nothing, if there is one. -/
def findEmptyRepetition (g : Productions) (nullable : Rule → Bool) : Option Rule :=
  Rule.all.find? fun r => (g.get r).repeatsNullable nullable

/-! ## Soundness of a table -/

/-- Both searches, one after the other. -/
def check (g : Productions) : Except GrammarError Unit :=
  let nullable := g.nullableRules.get
  match g.findLeftRecursion nullable with
  | some cycle => .error (.leftRecursion cycle)
  | none =>
    match g.findEmptyRepetition nullable with
    | some rule => .error (.emptyRepetition rule)
    | none => .ok ()

end Productions

end GraphQL
