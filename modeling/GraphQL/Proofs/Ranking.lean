/-
  Tables without left recursion.

  The search for left recursion walks the left calls of a table depth first and keeps a stack.  That
  it finds nothing can be certified without walking: it is enough to give each rule a rank that is
  lower for each rule it may call before it has matched a token (`Ranked`).  Along the stack of the
  walk ranks grow towards the outside, so no rule is ever met that stands on it
  (`walkLeftCalls_ok`).

  The same certificate bounds the calls on a left edge, which is what makes the openings of the
  table complete.
-/
import GraphQL.Grammar.Opening

namespace GraphQL.Productions

/-- Certificate of a sound table: the rules that can match nothing, and ranks that fall along left
    calls. -/
structure Ranked (g : Productions) (nullable : Rule → Bool) (rank : Rule → Nat) : Prop where
  /-- Each rule whose production can match nothing is listed. -/
  closed : ∀ r, (g.get r).nullable nullable = true → nullable r = true
  /-- What a rule calls on its left edge has a lower rank. -/
  falls : ∀ r, ∀ q ∈ (g.get r).leftCalls nullable, rank q < rank r
  /-- No rank is as great as the number of rules. -/
  bounded : ∀ r, rank r < Rule.count
  /-- Nothing is repeated that can match nothing. -/
  repeats : ∀ r, (g.get r).repeatsNullable nullable = false

/-- The greatest number of calls in a row on the left edge of a rule, counted up to a bound. -/
def leftHeight (g : Productions) (nullable : Rule → Bool) : (bound : Nat) → Rule → Nat
  | 0, _ => 0
  | bound + 1, r =>
    ((g.get r).leftCalls nullable).foldr (fun q => max (g.leftHeight nullable bound q + 1)) 0

/-- The walk closes no cycle, if ranks fall along the calls and all rules to be looked at have lower
    ranks than those on the stack. -/
theorem walkLeftCalls_ok {calls : Rule → List Rule} {rank : Rule → Nat}
    (falls : ∀ r, ∀ q ∈ calls r, rank q < rank r) (todo stack done : List Rule)
    (below : ∀ r ∈ todo, ∀ q ∈ stack, rank r < rank q) :
    ∃ done', walkLeftCalls calls todo stack done = .ok done' := by
  fun_induction walkLeftCalls calls todo stack done with
  | case1 stack done => exact ⟨done, rfl⟩
  | case2 stack done r rest onStack =>
    exact absurd (below r List.mem_cons_self r (by simpa using onStack)) (Nat.lt_irrefl _)
  | case3 stack done r rest off seen ih =>
    exact ih fun q hq => below q (List.mem_cons_of_mem _ hq)
  | case4 stack done r rest off new cycle hinner ih =>
    -- the calls of `r` rank below it, and it ranks below the rest of the stack
    have inner : ∀ q ∈ calls r, ∀ p ∈ r :: stack, rank q < rank p := by
      intro q hq p hp
      rcases List.mem_cons.mp hp with rfl | hp
      · exact falls _ q hq
      · exact Nat.lt_trans (falls r q hq) (below r List.mem_cons_self p hp)
    obtain ⟨done', h⟩ := ih inner
    rw [hinner] at h
    cases h
  | case5 stack done r rest off new done' hinner ih₁ ih₂ =>
    exact ih₂ fun q hq => below q (List.mem_cons_of_mem _ hq)

/-- A ranked table passes both searches. -/
theorem Ranked.check_ok {g : Productions} {rank : Rule → Nat}
    (ranked : g.Ranked g.nullableRules.get rank) : g.check = .ok () := by
  have noRecursion : g.findLeftRecursion g.nullableRules.get = none := by
    have falls : ∀ r,
        ∀ q ∈ (RuleTable.ofFn fun r => (g.get r).leftCalls g.nullableRules.get).get r,
        rank q < rank r := by
      simpa using ranked.falls
    obtain ⟨done, h⟩ := walkLeftCalls_ok falls Rule.all [] [] (by simp)
    simp only [findLeftRecursion, h]
  have noRepetition : g.findEmptyRepetition g.nullableRules.get = none := by
    refine List.find?_eq_none.mpr fun r _ => ?_
    simp [ranked.repeats r]
  simp only [check, noRecursion, noRepetition]

end GraphQL.Productions
