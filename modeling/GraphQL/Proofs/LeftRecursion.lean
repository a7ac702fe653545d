/-
  The search for left recursion finds it exactly.

  A rule is left-recursive if leftmost expansion of its production comes to a call of the rule
  itself before a demand is emitted (`Unfolds`).  What the search walks are single calls: the rules
  that a production may call on its left edge, behind parts that can match nothing (`Invokes`).

  If the walk fails, it closes a cycle of such calls, since along its stack each rule is called by
  the one below it; and calls in a row make up one leftmost expansion (`unfolds_of_chain`).  If the
  walk succeeds, it has finished every rule after all that the rule calls (`Finished`).  That order
  ranks the rules, and along a leftmost expansion that emits nothing ranks do not rise
  (`rank_le_of_unfolds`), so no rule comes back to itself.  The ranks are what the completeness of
  openings needs too, so a table that passes its checks is ranked (`exists_ranked_of_check`).
-/
import GraphQL.Proofs.Nullability
import GraphQL.Proofs.Unfolding
import Mathlib.Data.List.Chain

namespace GraphQL

/-! ## Single calls -/

/-- A production may call the rule before it has matched a token: all that stands before the call is
    expanded to nothing. -/
inductive Invokes (g : Productions) (callee : Rule) : Production → Prop where
  | call {arg} : Invokes g callee (.call callee arg)
  | first {p items} (inside : Invokes g callee p) : Invokes g callee (.sequence (p :: items))
  | later {p items} (nothing : Emits g p []) (others : Invokes g callee (.sequence items)) :
      Invokes g callee (.sequence (p :: items))
  | optional {body} (inside : Invokes g callee body) : Invokes g callee (.optional body)
  | many {body} (inside : Invokes g callee body) : Invokes g callee (.many body)
  | atLeastOne {body} (inside : Invokes g callee body) : Invokes g callee (.atLeastOne body)
  | branch {gate p alternatives} (chosen : (gate, p) ∈ alternatives)
      (inside : Invokes g callee p) : Invokes g callee (.choice alternatives)

/-- Leftmost expansion comes to a call that a production may make first. -/
theorem Invokes.unfolds {g : Productions} {callee : Rule} {p : Production}
    (h : Invokes g callee p) (row : List Production) :
    ∃ arg rest, Unfolds g (p :: row) [] (.call callee arg :: rest) := by
  induction h generalizing row with
  | call => exact ⟨_, row, .stop⟩
  | @first p items _ ih =>
    -- what an item invokes is invoked with the other items behind it
    obtain ⟨arg, rest, h⟩ := ih (items ++ row)
    exact ⟨arg, rest, .sequence h⟩
  | @later p items nothing others ih =>
    -- the items in front match nothing, so they are expanded away
    obtain ⟨arg, rest, h⟩ := ih row
    refine ⟨arg, rest, .sequence ?_⟩
    cases h with
    | sequence inside => exact (nothing.unfolds (items ++ row)).trans inside
  | optional _ ih =>
    obtain ⟨arg, rest, h⟩ := ih row
    exact ⟨arg, rest, .enter h⟩
  | @many body _ ih =>
    -- what a round invokes is invoked with a further round behind it
    obtain ⟨arg, rest, h⟩ := ih (.many body :: row)
    exact ⟨arg, rest, .again h⟩
  | @atLeastOne body _ ih =>
    obtain ⟨arg, rest, h⟩ := ih (.many body :: row)
    exact ⟨arg, rest, .once h⟩
  | branch chosen _ ih =>
    obtain ⟨arg, rest, h⟩ := ih row
    exact ⟨arg, rest, .branch chosen h⟩

section LeftCalls

variable {g : Productions} {known : Rule → Bool}

mutual

/-- What is listed as a left call is one, if what is known is expanded to nothing. -/
theorem invokes_of_mem_leftCalls (sound : g.Sound known) {callee : Rule} :
    (p : Production) → callee ∈ p.leftCalls known → Invokes g callee p
  | .token _, h => nomatch h
  | .call rule arg, h => by
    obtain rfl := List.mem_singleton.mp h
    exact .call
  | .sequence items, h => invokes_of_mem_leftCallsOfAll sound items h
  | .optional body, h => .optional (invokes_of_mem_leftCalls sound body h)
  | .many body, h => .many (invokes_of_mem_leftCalls sound body h)
  | .atLeastOne body, h => .atLeastOne (invokes_of_mem_leftCalls sound body h)
  | .choice alternatives, h => by
    obtain ⟨gate, p, chosen, inside⟩ := invokes_of_mem_leftCallsOfAlternatives sound alternatives h
    exact .branch chosen inside

/-- The same, for productions in a row. -/
theorem invokes_of_mem_leftCallsOfAll (sound : g.Sound known) {callee : Rule} :
    (items : List Production) → callee ∈ Production.leftCallsOfAll known items →
      Invokes g callee (.sequence items)
  | [], h => nomatch h
  | p :: rest, h => by
    rcases List.mem_append.mp h with h | h
    · exact .first (invokes_of_mem_leftCalls sound p h)
    · by_cases passed : p.nullable known = true
      · rw [if_pos passed] at h
        exact .later (p.emits_of_nullable sound passed) (invokes_of_mem_leftCallsOfAll sound rest h)
      · rw [if_neg passed] at h
        cases h

/-- The same, for one of some alternatives. -/
theorem invokes_of_mem_leftCallsOfAlternatives (sound : g.Sound known) {callee : Rule} :
    (alternatives : List (Gate × Production)) →
      callee ∈ Production.leftCallsOfAlternatives known alternatives →
      ∃ gate p, (gate, p) ∈ alternatives ∧ Invokes g callee p
  | [], h => nomatch h
  | (gate, p) :: rest, h => by
    rcases List.mem_append.mp h with h | h
    · exact ⟨gate, p, List.mem_cons_self, invokes_of_mem_leftCalls sound p h⟩
    · obtain ⟨gate, q, chosen, inside⟩ := invokes_of_mem_leftCallsOfAlternatives sound rest h
      exact ⟨gate, q, List.mem_cons_of_mem _ chosen, inside⟩

end

end LeftCalls

/-- Calls in a row, each the first thing that its rule does, make up one leftmost expansion. -/
theorem unfolds_of_chain {g : Productions} {first last : Rule} {between : List Rule}
    (chain : (first :: between ++ [last]).IsChain fun r q => Invokes g q (g.get r)) :
    ∃ arg rest, Unfolds g [g.get first] [] (.call last arg :: rest) := by
  induction between generalizing first with
  | nil =>
    obtain ⟨invokes, -⟩ := List.isChain_cons_cons.mp chain
    exact invokes.unfolds []
  | cons next between ih =>
    obtain ⟨invokes, chain⟩ := List.isChain_cons_cons.mp chain
    obtain ⟨arg, rest, first⟩ := invokes.unfolds []
    obtain ⟨arg', rest', later⟩ := ih chain
    exact ⟨arg', rest' ++ rest, first.trans (.call (later.before rest))⟩

/-! ## Calls along a leftmost expansion -/

namespace Production

variable {known : Rule → Bool}

/-- The left calls behind a row are those of a further one if the row may be empty. -/
theorem leftCallsOfAll_append (xs ys : List Production) :
    leftCallsOfAll known (xs ++ ys) = leftCallsOfAll known xs ++
      if allNullable known xs then leftCallsOfAll known ys else [] := by
  induction xs with
  | nil => rfl
  | cons x xs ih =>
    rw [List.cons_append, leftCallsOfAll, leftCallsOfAll, allNullable, ih]
    cases x.nullable known <;> simp

/-- What is called behind a first production, which can match nothing, is called on the left. -/
theorem mem_leftCallsOfAll_cons {p : Production} {row : List Production} {r : Rule} :
    r ∈ leftCallsOfAll known (p :: row) ↔
      r ∈ p.leftCalls known ∨ p.nullable known = true ∧ r ∈ leftCallsOfAll known row := by
  rw [leftCallsOfAll, List.mem_append]
  by_cases passed : p.nullable known = true
  · simp [passed]
  · simp [passed]

end Production

/-- Along a leftmost expansion that emits nothing ranks do not rise: the call that it comes to ranks
    no higher than one that stands on the left where it starts. -/
theorem rank_le_of_unfolds {g : Productions} {known : Rule → Bool} {rank : Rule → Nat}
    (settled : g.Settled known) (falls : ∀ r, ∀ q ∈ (g.get r).leftCalls known, rank q < rank r)
    {row rest next : List Production} {kinds : List TokenKind} {last : Rule} {arg : ConstArg}
    (h : Unfolds g row kinds rest) (nothing : kinds = []) (atCall : rest = .call last arg :: next) :
    ∃ first ∈ Production.leftCallsOfAll known row, rank last ≤ rank first := by
  induction h with
  | stop =>
    subst atCall
    exact ⟨last, Production.mem_leftCallsOfAll_cons.mpr (.inl List.mem_cons_self), Nat.le_refl _⟩
  | token => cases nothing
  | @call rule arg row _ _ _ ih =>
    obtain ⟨first, mem, le⟩ := ih nothing atCall
    rcases Production.mem_leftCallsOfAll_cons.mp mem with inside | ⟨passed, others⟩
    · -- the rule that is entered stands on the left and ranks higher
      refine ⟨rule, Production.mem_leftCallsOfAll_cons.mpr (.inl List.mem_cons_self), ?_⟩
      have lower := falls rule first inside
      omega
    · exact ⟨first, Production.mem_leftCallsOfAll_cons.mpr (.inr ⟨settled rule passed, others⟩), le⟩
  | sequence _ ih =>
    obtain ⟨first, mem, le⟩ := ih nothing atCall
    rw [Production.leftCallsOfAll_append] at mem
    exact ⟨first, mem, le⟩
  | skip _ ih =>
    obtain ⟨first, mem, le⟩ := ih nothing atCall
    exact ⟨first, Production.mem_leftCallsOfAll_cons.mpr (.inr ⟨rfl, mem⟩), le⟩
  | enter _ ih =>
    obtain ⟨first, mem, le⟩ := ih nothing atCall
    refine ⟨first, Production.mem_leftCallsOfAll_cons.mpr ?_, le⟩
    rcases Production.mem_leftCallsOfAll_cons.mp mem with inside | ⟨-, others⟩
    · exact .inl inside
    · exact .inr ⟨rfl, others⟩
  | done _ ih =>
    obtain ⟨first, mem, le⟩ := ih nothing atCall
    exact ⟨first, Production.mem_leftCallsOfAll_cons.mpr (.inr ⟨rfl, mem⟩), le⟩
  | again _ ih =>
    obtain ⟨first, mem, le⟩ := ih nothing atCall
    refine ⟨first, ?_, le⟩
    rcases Production.mem_leftCallsOfAll_cons.mp mem with inside | ⟨-, others⟩
    · exact Production.mem_leftCallsOfAll_cons.mpr (.inl inside)
    · exact others
  | once _ ih =>
    obtain ⟨first, mem, le⟩ := ih nothing atCall
    refine ⟨first, Production.mem_leftCallsOfAll_cons.mpr ?_, le⟩
    rcases Production.mem_leftCallsOfAll_cons.mp mem with inside | ⟨passed, others⟩
    · exact .inl inside
    · -- behind the first round stand the other rounds, with the same left calls
      rcases Production.mem_leftCallsOfAll_cons.mp others with inside | ⟨-, others⟩
      · exact .inl inside
      · exact .inr ⟨passed, others⟩
  | branch chosen _ ih =>
    obtain ⟨first, mem, le⟩ := ih nothing atCall
    refine ⟨first, Production.mem_leftCallsOfAll_cons.mpr ?_, le⟩
    rcases Production.mem_leftCallsOfAll_cons.mp mem with inside | ⟨passed, others⟩
    · exact .inl (Production.leftCalls_subset_of_mem chosen inside)
    · exact .inr ⟨Production.someNullable_of_mem chosen passed, others⟩

namespace Productions

/-! ## A walk that closes a cycle -/

/-- A cycle of calls: it begins and ends with one rule, and each rule in it calls the next. -/
def IsCycle (calls : Rule → List Rule) (cycle : List Rule) : Prop :=
  (∃ r between, cycle = r :: between ++ [r]) ∧ cycle.IsChain fun r q => q ∈ calls r

/-- A stack is split at the topmost place of a rule. -/
theorem exists_takeWhile_append {stack : List Rule} {r : Rule} (h : r ∈ stack) :
    ∃ below, stack = stack.takeWhile (· != r) ++ r :: below := by
  induction stack with
  | nil => cases h
  | cons top stack ih =>
    by_cases here : top = r
    · exact ⟨stack, by simp [here]⟩
    · have mem : r ∈ stack := by
        rcases List.mem_cons.mp h with same | mem
        · exact absurd same.symm here
        · exact mem
      obtain ⟨below, split⟩ := ih mem
      have first : (top :: stack).takeWhile (· != r) = top :: stack.takeWhile (· != r) :=
        List.takeWhile_cons_of_pos (bne_iff_ne.mpr here)
      refine ⟨below, ?_⟩
      rw [first, List.cons_append, ← split]

section Walk

variable {calls : Rule → List Rule} {todo stack done : List Rule}

/-- If each rule on a stack is called by the one below it, and the top calls a rule of the stack,
    the rules down to that one form a cycle. -/
theorem isCycle_of_mem {r : Rule} (onStack : stack.IsChain fun inner outer => inner ∈ calls outer)
    (called : ∀ top ∈ stack.head?, r ∈ calls top) (mem : r ∈ stack) :
    IsCycle calls (r :: (stack.takeWhile (· != r)).reverse ++ [r]) := by
  obtain ⟨below, split⟩ := exists_takeWhile_append mem
  have closed : (r :: stack).IsChain fun inner outer => inner ∈ calls outer :=
    List.isChain_cons.mpr ⟨called, onStack⟩
  rw [split, ← List.cons_append, List.isChain_split] at closed
  refine ⟨⟨r, _, rfl⟩, ?_⟩
  -- the stack is read from below
  have turned := List.isChain_reverse.mpr closed.1
  simpa using turned

/-- The walk fails at a cycle only. -/
theorem isCycle_of_walk {cycle : List Rule} (h : walkLeftCalls calls todo stack done = .error cycle)
    (onStack : stack.IsChain fun inner outer => inner ∈ calls outer)
    (called : ∀ r ∈ todo, ∀ top ∈ stack.head?, r ∈ calls top) : IsCycle calls cycle := by
  fun_induction walkLeftCalls calls todo stack done with
  | case1 => cases h
  | case2 stack done r rest mem =>
    -- the rule stands on the stack: the calls from there to the top close a cycle
    cases h
    exact isCycle_of_mem onStack (called r List.mem_cons_self) (by simpa using mem)
  | case3 stack done r rest off seen ih =>
    exact ih h onStack fun q hq => called q (List.mem_cons_of_mem _ hq)
  | case4 stack done r rest off new found inner ih =>
    -- the walk below the rule fails, with the rule on top of the stack
    cases h
    refine ih inner (List.isChain_cons.mpr ⟨called r List.mem_cons_self, onStack⟩) ?_
    intro q hq top htop
    obtain rfl := Option.some.inj htop
    exact hq
  | case5 stack done r rest off new done' inner ih₁ ih₂ =>
    -- the walk below the rule ends, and the one beside it fails
    exact ih₂ h onStack fun q hq => called q (List.mem_cons_of_mem _ hq)

/-! ## A walk that finishes all rules -/

/-- Rules in the order in which they are finished, the last first: each is finished once, and after
    all that it calls. -/
inductive Finished (calls : Rule → List Rule) : List Rule → Prop where
  | nil : Finished calls []
  | cons {r done} (new : r ∉ done) (settled : calls r ⊆ done) (others : Finished calls done) :
      Finished calls (r :: done)

/-- The walk finishes the rules that it is to look at.  None of those on its stack is finished
    before the walk comes back to it. -/
theorem finished_of_walk {done' : List Rule}
    (h : walkLeftCalls calls todo stack done = .ok done') (finished : Finished calls done)
    (apart : ∀ r ∈ stack, r ∉ done) :
    done ⊆ done' ∧ todo ⊆ done' ∧ Finished calls done' ∧ ∀ r ∈ stack, r ∉ done' := by
  fun_induction walkLeftCalls calls todo stack done generalizing done' with
  | case1 stack done =>
    cases h
    exact ⟨List.Subset.refl _, List.nil_subset _, finished, apart⟩
  | case2 => cases h
  | case3 stack done r rest off seen ih =>
    -- the rule was looked at before
    obtain ⟨grow, looked, finished, apart⟩ := ih h finished apart
    have here : r ∈ done' := grow (by simpa using seen)
    exact ⟨grow, List.cons_subset.mpr ⟨here, looked⟩, finished, apart⟩
  | case4 => cases h
  | case5 stack done r rest off new mid inner ih₁ ih₂ =>
    -- the rule is new: what it calls is looked at first, with the rule on the stack, and then what
    -- is beside it
    have notDone : r ∉ done := by simpa using new
    have notStacked : r ∉ stack := by simpa using off
    obtain ⟨growMid, called, finishedMid, apartMid⟩ :=
      ih₁ inner finished (List.forall_mem_cons.mpr ⟨notDone, apart⟩)
    obtain ⟨newMid, apartMid⟩ := List.forall_mem_cons.mp apartMid
    -- the rule is done now, and it was not on the stack
    have apartNext : ∀ q ∈ stack, q ∉ r :: mid := by
      intro q hq mem
      rcases List.mem_cons.mp mem with rfl | mem
      · exact notStacked hq
      · exact apartMid q hq mem
    obtain ⟨grow, looked, finished, apart⟩ := ih₂ h (.cons newMid called finishedMid) apartNext
    obtain ⟨here, grow⟩ := List.cons_subset.mp grow
    exact ⟨List.Subset.trans growMid grow, List.cons_subset.mpr ⟨here, looked⟩, finished, apart⟩

namespace Finished

theorem nodup (h : Finished calls done) : done.Nodup := by
  induction h with
  | nil => exact .nil
  | cons new _ _ ih => exact List.nodup_cons.mpr ⟨new, ih⟩

/-- What a finished rule calls is finished. -/
theorem calls_subset (h : Finished calls done) : ∀ r ∈ done, calls r ⊆ done := by
  induction h with
  | nil => exact nofun
  | cons _ settled _ ih =>
    intro q mem
    rcases List.mem_cons.mp mem with rfl | mem
    · exact List.Subset.trans settled (List.subset_cons_self ..)
    · exact List.Subset.trans (ih q mem) (List.subset_cons_self ..)

/-- The order in which rules are finished ranks them: what a rule calls ranks below it. -/
theorem exists_rank (h : Finished calls done) : ∃ rank : Rule → Nat,
    (∀ r ∈ done, rank r < done.length) ∧ ∀ r ∈ done, ∀ q ∈ calls r, rank q < rank r := by
  induction h with
  | nil => exact ⟨fun _ => 0, nofun, nofun⟩
  | @cons r done new settled others ih =>
    obtain ⟨rank, bounded, falls⟩ := ih
    -- ranking the newest rule highest leaves the older ones as they are
    have older : ∀ q ∈ done, Function.update rank r done.length q = rank q := by
      intro q hq
      have other : q ≠ r := by
        rintro rfl
        exact new hq
      exact Function.update_of_ne other ..
    refine ⟨Function.update rank r done.length, ?_, ?_⟩
    · -- no rank is too high
      intro q mem
      rcases List.mem_cons.mp mem with rfl | mem
      · rw [Function.update_self]
        exact Nat.lt_succ_self _
      · rw [older q mem]
        exact Nat.lt_succ_of_lt (bounded q mem)
    · -- each call falls: those of the newest rule to older ones, and those of the others as before
      intro x mem q hq
      rcases List.mem_cons.mp mem with rfl | mem
      · rw [Function.update_self, older q (settled hq)]
        exact bounded q (settled hq)
      · rw [older x mem, older q (others.calls_subset x mem hq)]
        exact falls x mem q hq

end Finished

end Walk

/-! ## The search -/

section Search

variable {g : Productions} {nullable : Rule → Bool}

/-- The walk that the search makes. -/
theorem findLeftRecursion_eq : g.findLeftRecursion nullable =
    match walkLeftCalls (fun r => (g.get r).leftCalls nullable) Rule.all [] [] with
    | .error cycle => some cycle
    | .ok _ => none := by
  have calls : (RuleTable.ofFn fun r => (g.get r).leftCalls nullable).get
      = fun r => (g.get r).leftCalls nullable := funext fun r => RuleTable.get_ofFn ..
  rw [← calls]
  rfl

theorem findLeftRecursion_eq_some {cycle : List Rule} :
    g.findLeftRecursion nullable = some cycle ↔
      walkLeftCalls (fun r => (g.get r).leftCalls nullable) Rule.all [] [] = .error cycle := by
  rw [findLeftRecursion_eq]
  cases walkLeftCalls (fun r => (g.get r).leftCalls nullable) Rule.all [] [] <;> simp

theorem findLeftRecursion_eq_none : g.findLeftRecursion nullable = none ↔
    ∃ done, walkLeftCalls (fun r => (g.get r).leftCalls nullable) Rule.all [] [] = .ok done := by
  rw [findLeftRecursion_eq]
  cases walkLeftCalls (fun r => (g.get r).leftCalls nullable) Rule.all [] [] <;> simp

/-- What the search returns is a cycle of left calls. -/
theorem isCycle_of_findLeftRecursion {cycle : List Rule}
    (h : g.findLeftRecursion nullable = some cycle) :
    IsCycle (fun r => (g.get r).leftCalls nullable) cycle :=
  isCycle_of_walk (findLeftRecursion_eq_some.mp h) .nil fun _ _ => nofun

/-- If the search finds nothing the rules are ranked. -/
theorem exists_rank_of_findLeftRecursion (h : g.findLeftRecursion nullable = none) :
    ∃ rank : Rule → Nat, (∀ r, rank r < Rule.count) ∧
      ∀ r, ∀ q ∈ (g.get r).leftCalls nullable, rank q < rank r := by
  obtain ⟨done, walk⟩ := findLeftRecursion_eq_none.mp h
  obtain ⟨-, looked, finished, -⟩ := finished_of_walk walk .nil nofun
  obtain ⟨rank, bounded, falls⟩ := finished.exists_rank
  have few : done.length ≤ Rule.count :=
    List.Nodup.length_le_of_subset finished.nodup fun r _ => Rule.mem_all r
  refine ⟨rank, ?_, ?_⟩
  · intro r
    exact Nat.lt_of_lt_of_le (bounded r (looked (Rule.mem_all r))) few
  · intro r
    exact falls r (looked (Rule.mem_all r))

/-- A table that passes its checks is ranked. -/
theorem exists_ranked_of_check (checked : g.check = .ok ()) :
    ∃ rank, g.Ranked g.nullableRules.get rank := by
  simp only [check] at checked
  split at checked
  · cases checked
  · rename_i noRecursion
    split at checked
    · cases checked
    · rename_i noRepetition
      obtain ⟨rank, bounded, falls⟩ := exists_rank_of_findLeftRecursion noRecursion
      refine ⟨rank, g.settled_nullableRules, falls, bounded, fun r => ?_⟩
      have passed := List.find?_eq_none.mp noRepetition r (Rule.mem_all r)
      simpa using passed

end Search

end Productions

/-- Left recursion is found exactly.  The search finds nothing just if no rule comes, by leftmost
    expansion and before a demand is emitted, to a call of itself.  What it returns otherwise begins
    and ends with one rule, and each rule in it may call the next before it has matched a token.
    The rules that it takes to match nothing are those that are expanded to nothing. -/
theorem left_recursion_found (g : Productions) :
    (g.findLeftRecursion g.nullableRules.get = none ↔
      ¬ ∃ r arg rest, Unfolds g [g.get r] [] (.call r arg :: rest)) ∧
    (∀ cycle, g.findLeftRecursion g.nullableRules.get = some cycle →
      (∃ r between, cycle = r :: between ++ [r]) ∧
        cycle.IsChain fun r q => Invokes g q (g.get r)) ∧
    ∀ r, g.nullableRules.get r = true ↔ Emits g (g.get r) [] := by
  have closes : ∀ cycle, g.findLeftRecursion g.nullableRules.get = some cycle →
      (∃ r between, cycle = r :: between ++ [r]) ∧
        cycle.IsChain fun r q => Invokes g q (g.get r) := by
    intro cycle found
    obtain ⟨ends, chain⟩ := Productions.isCycle_of_findLeftRecursion found
    refine ⟨ends, chain.imp fun r q mem => ?_⟩
    exact invokes_of_mem_leftCalls g.sound_nullableRules (g.get r) mem
  refine ⟨?_, closes, g.nullableRules_iff⟩
  constructor
  · -- a walk that ends ranks the rules, and no rank is below itself
    rintro none ⟨r, arg, rest, h⟩
    obtain ⟨rank, -, falls⟩ := Productions.exists_rank_of_findLeftRecursion none
    obtain ⟨first, mem, le⟩ := rank_le_of_unfolds g.settled_nullableRules falls h rfl rfl
    rcases Production.mem_leftCallsOfAll_cons.mp mem with inside | ⟨-, others⟩
    · have lower := falls r first inside
      omega
    · cases others
  · -- a walk that finds a cycle expands it
    intro never
    cases found : g.findLeftRecursion g.nullableRules.get with
    | none => rfl
    | some cycle =>
      obtain ⟨⟨r, between, rfl⟩, chain⟩ := closes cycle found
      obtain ⟨arg, rest, h⟩ := unfolds_of_chain chain
      exact absurd ⟨r, arg, rest, h⟩ never

/-- A table with a cycle: a document begins with a definition, behind an optional part, and a
    definition with a document. -/
def circular : Productions := .ofFn fun
  | .document => .sequence [.optional (.token (.punctuator .at)), .call .definition .inherited]
  | .definition => .atLeastOne (.call .document .inherited)
  | _ => .sequence []

/-- Its documents come to a call of a document before a token is matched. -/
theorem unfolds_circular :
    ∃ arg rest, Unfolds circular [circular.get .document] [] (.call .document arg :: rest) := by
  have document : circular.get .document =
      .sequence [.optional (.token (.punctuator .at)), .call .definition .inherited] := rfl
  have definition : circular.get .definition = .atLeastOne (.call .document .inherited) := rfl
  refine ⟨.inherited, [.many (.call .document .inherited)], ?_⟩
  rw [document]
  refine .sequence (.skip (.call ?_))
  rw [definition]
  exact .once .stop

/-- The cycle of that table is found, and only the rules that are empty in it match nothing. -/
theorem left_recursion_found_circular :
    (∃ r between, circular.findLeftRecursion circular.nullableRules.get
      = some (r :: between ++ [r])) ∧
    ¬ Emits circular (circular.get .document) [] := by
  obtain ⟨none_iff, cycles, nullable_iff⟩ := left_recursion_found circular
  constructor
  · cases found : circular.findLeftRecursion circular.nullableRules.get with
    | none =>
      obtain ⟨arg, rest, h⟩ := unfolds_circular
      exact absurd ⟨_, arg, rest, h⟩ (none_iff.mp found)
    | some cycle =>
      obtain ⟨⟨r, between, rfl⟩, -⟩ := cycles cycle found
      exact ⟨r, between, rfl⟩
  · rw [← nullable_iff]
    decide +kernel

end GraphQL
