/-
  The standard table is a grammar.

  Whether a table passes its checks is decided by evaluation where the evaluation is short: which
  rules can match nothing, that ranks fall along left calls, that every choice can be told apart.
  The search for left recursion is not evaluated; the ranks answer for it (`Ranked.check_ok`).
-/
import GraphQL.Grammar.Standard
import GraphQL.Proofs.Demands
import GraphQL.Proofs.Ranking

namespace GraphQL

/-- A table is made of a function that never fails. -/
theorem RuleTable.ofFn?_eq_ok {ε α : Type} {f : Rule → Except ε α} {h : Rule → α}
    (never : ∀ r, f r = .ok (h r)) : ofFn? f = .ok (ofFn h) := by
  have made : Rule.all.mapM f = .ok (Rule.all.map h) :=
    mapM_eq_ok_iff.mpr (by simp [never])
  unfold ofFn?
  split
  · rename_i e failed
    rw [made] at failed
    cases failed
  · rename_i as done
    rw [made] at done
    cases done
    rfl

/-- A sound table whose choices can be told apart is a grammar. -/
theorem Grammar.ofProductions_eq_ok {g : Productions} {plans : RuleTable Plan}
    (checked : g.check = .ok ()) (made : g.plans = .ok plans) :
    Grammar.ofProductions g = .ok ⟨g, plans⟩ := by
  simp only [Grammar.ofProductions, checked, made]
  rfl

namespace Standard

set_option maxRecDepth 100000

/-- The whole document is the only rule that can match nothing. -/
theorem nullableRules_eq : productions.nullableRules.get = (· == .document) := by
  have all : ∀ r ∈ Rule.all, productions.nullableRules.get r = (r == .document) := by
    decide +kernel
  exact funext fun r => all r (Rule.mem_all r)

/-- The rank of a rule: how many calls stand in a row on its left edge. -/
def rank (r : Rule) : Nat := productions.leftHeight (· == .document) 10 r

/-- Each left call goes down in the order of the rules. -/
theorem ranked : productions.Ranked productions.nullableRules.get rank := by
  rw [nullableRules_eq]
  have closed : ∀ r ∈ Rule.all,
      (productions.get r).nullable (· == .document) = true → (r == .document) = true := by
    decide +kernel
  have falls : ∀ r ∈ Rule.all, ∀ q ∈ (productions.get r).leftCalls (· == .document),
      rank q < rank r := by
    decide +kernel
  have bounded : ∀ r ∈ Rule.all, rank r < Rule.count := by decide +kernel
  have repeats : ∀ r ∈ Rule.all,
      (productions.get r).repeatsNullable (· == .document) = false := by
    decide +kernel
  exact ⟨fun r => closed r (Rule.mem_all r), fun r => falls r (Rule.mem_all r),
    fun r => bounded r (Rule.mem_all r), fun r => repeats r (Rule.mem_all r)⟩

/-- The grammar of the standard table. -/
def grammar : Grammar := { productions, plans := productions.plans.toOption.getD default }

/-- Every choice of the standard table can be told apart. -/
theorem plans_eq : productions.plans = .ok grammar.plans := by
  have told : productions.plans.isOk = true := by decide +kernel
  cases h : productions.plans with
  | error e =>
    rw [h] at told
    cases told
  | ok plans => simp [grammar, h, Except.toOption]

/-- The standard table passes every check. -/
theorem finish_eq : draft.finish = .ok grammar := by
  have table : RuleTable.ofFn? draft.production = .ok productions :=
    RuleTable.ofFn?_eq_ok fun r => by simp [Draft.production, draft]
  show (RuleTable.ofFn? draft.production >>= Grammar.ofProductions) = _
  rw [table]
  exact Grammar.ofProductions_eq_ok ranked.check_ok plans_eq

theorem grammar?_eq : grammar? = .ok grammar := by
  rw [grammar?]
  exact finish_eq

/-- No standard production asks for the end of the input. -/
theorem reserved : productions.NeverExpects .endOfInput := by decide +kernel

end Standard

end GraphQL
