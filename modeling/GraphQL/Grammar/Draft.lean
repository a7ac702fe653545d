/-
  Making grammars.

  A `Draft` is a grammar under construction: rules may still lack a production, and a rule may be
  given another one, once.  `Draft.finish` checks the table and makes its plans; what comes out is a
  `Grammar`, which is all that a parser needs.  A change that is refused leaves the draft as it was,
  since it gives an error in place of a draft.
-/
import GraphQL.Grammar.Plan

namespace GraphQL

/-- A checked table of productions, with the plan of each rule. -/
structure Grammar where
  productions : Productions
  plans : RuleTable Plan
deriving Inhabited

namespace Grammar

/-- How many tokens the hardest choice of a rule looks at; none if it has no choice. -/
def lookaheadDepth (g : Grammar) (r : Rule) : Nat := (g.plans.get r).depth

/-- Checks a table and makes its plans. -/
def ofProductions (productions : Productions) : Except GrammarError Grammar := do
  productions.check
  let plans ← productions.plans
  return { productions, plans }

end Grammar

/-- A grammar under construction. -/
structure Draft where
  entries : RuleTable (Option Production)
  /-- The rules that have been given another production. -/
  overridden : List Rule := []
deriving Inhabited

namespace Draft

/-- The production of a rule in a list of productions by rule. -/
def lookup (rules : List (Rule × Production)) (r : Rule) : Option Production :=
  (rules.find? fun (name, _) => name == r).map (·.2)

/-- The first rule that is listed for a second time. -/
def findDuplicate (seen : List Rule) : List (Rule × Production) → Option Rule
  | [] => none
  | (r, _) :: rest => if seen.contains r then some r else findDuplicate (r :: seen) rest

/-- The draft of listed rules, each of which may be listed once. -/
def ofRules (rules : List (Rule × Production)) : Except GrammarError Draft :=
  match findDuplicate [] rules with
  | some r => .error (.duplicateRule r)
  | none => .ok { entries := .ofFn (lookup rules) }

/-- Gives the rule of a name another production; each rule may be overridden once. -/
def override (d : Draft) (name : String) (p : Production) : Except GrammarError Draft :=
  match Rule.ofName? name with
  | none => .error (.unknownRule name)
  | some r =>
    if d.overridden.contains r then .error (.duplicateRule r)
    else
      .ok { entries := .ofFn fun x => if x = r then some p else d.entries.get x
            overridden := r :: d.overridden }

/-- The production of a rule, which must have one. -/
def production (d : Draft) (r : Rule) : Except GrammarError Production :=
  match d.entries.get r with
  | some p => .ok p
  | none => .error (.undefinedRule r)

/-- The grammar of a draft in which every rule has a production. -/
def finish (d : Draft) : Except GrammarError Grammar := do
  let productions ← RuleTable.ofFn? d.production
  Grammar.ofProductions productions

end Draft

end GraphQL
