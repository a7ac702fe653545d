/-
  Overriding a rule.

  A rule that is given another production changes nothing for the rules that do not come to it by
  calls.  Those are closed under calls, since a rule that calls one that comes to it comes to it
  itself, and the two tables agree on them (`Draft.agreeOn_of_override`).

  A call that overrides a rule may be refused.  `Draft.overrideIn` makes it step by step on a draft
  that is changed in place; the checks come first, so a refused call leaves the draft as it was
  (`Draft.run_overrideIn`).
-/
import GraphQL.Proofs.Agreement
import GraphQL.Proofs.StandardGrammar
import Mathlib.Logic.Relation

namespace GraphQL

/-! ## Calls that override -/

/-- Whether a rule is another one, or comes to it by calls. -/
def Productions.Reaches (g : Productions) : Rule → Rule → Prop :=
  Relation.ReflTransGen fun r q => q ∈ (g.get r).calls

/-- Rules that call no others reach no others. -/
theorem Productions.not_reaches_of_closed {g : Productions} {rules : List Rule} {r x : Rule}
    (closed : ∀ q ∈ rules, (g.get q).calls ⊆ rules) (inside : r ∈ rules) (outside : x ∉ rules) :
    ¬ g.Reaches r x := by
  intro reaches
  have stays : ∀ q, g.Reaches r q → q ∈ rules := by
    intro q h
    induction h with
    | refl => exact inside
    | tail _ called ih => exact closed _ ih called
  exact outside (stays x reaches)

namespace Draft

variable {d d' : Draft} {name : String} {p : Production} {x : Rule}

/-- An accepted call names a rule, gives it the production and counts it as overridden. -/
theorem override_eq_ok (made : d.override name p = .ok d') :
    ∃ x, Rule.ofName? name = some x ∧
      d' = { entries := .ofFn fun r => if r = x then some p else d.entries.get r
             overridden := x :: d.overridden } := by
  unfold override at made
  split at made
  · cases made
  · rename_i x named
    split at made
    · cases made
    · cases made
      exact ⟨x, named, rfl⟩

/-- A call is refused if its name is that of no rule, or if its rule has been overridden. -/
theorem override_eq_error_iff {e : GrammarError} :
    d.override name p = .error e ↔
      (Rule.ofName? name = none ∧ e = .unknownRule name) ∨
        ∃ r, Rule.ofName? name = some r ∧ r ∈ d.overridden ∧ e = .duplicateRule r := by
  unfold override
  cases Rule.ofName? name with
  | none => simp [eq_comm]
  | some r => by_cases again : r ∈ d.overridden <;> simp [again, eq_comm]

/-- Overriding a rule of a draft that can be finished makes the same table with one production
    put in. -/
theorem finish_of_override {g : Grammar} (named : Rule.ofName? name = some x)
    (made : d.override name p = .ok d') (finished : d.finish = .ok g) :
    d'.finish
      = Grammar.ofProductions (.ofFn fun r => if r = x then p else g.productions.get r) := by
  obtain ⟨y, same, rfl⟩ := override_eq_ok made
  obtain rfl := Option.some.inj (named.symm.trans same)
  obtain ⟨table, listed, done⟩ := bind_eq_ok_iff.mp finished
  obtain ⟨_, -, done⟩ := bind_eq_ok_iff.mp done
  obtain ⟨plans, -, done⟩ := bind_eq_ok_iff.mp done
  cases done
  -- the table is the same but for the entry of the rule
  have each : ∀ r, Draft.production
      { entries := .ofFn fun r => if r = x then some p else d.entries.get r
        overridden := x :: d.overridden } r = .ok (if r = x then p else table.get r) := by
    intro r
    have before := RuleTable.get_ofFn? listed r
    unfold production at before ⊢
    rw [RuleTable.get_ofFn]
    by_cases same : r = x
    · rw [if_pos same, if_pos same]
    · rw [if_neg same, if_neg same]
      exact before
  show (RuleTable.ofFn? (Draft.production _) >>= Grammar.ofProductions) = _
  rw [RuleTable.ofFn?_eq_ok each]
  rfl

/-- The rules that do not reach the overridden one are the same in both grammars. -/
theorem agreeOn_of_override {g g' : Grammar} (named : Rule.ofName? name = some x)
    (made : d.override name p = .ok d') (finished : d.finish = .ok g)
    (finished' : d'.finish = .ok g') :
    Productions.AgreeOn (fun r => ¬ g.productions.Reaches r x) g.productions g'.productions where
  same r apart := by
    rw [finish_of_override named made finished] at finished'
    obtain ⟨_, -, done⟩ := bind_eq_ok_iff.mp finished'
    obtain ⟨plans, -, done⟩ := bind_eq_ok_iff.mp done
    cases done
    have other : r ≠ x := by
      rintro rfl
      exact apart .refl
    exact (RuleTable.get_ofFn _ r).trans (if_neg other)
  closed r apart q called reaches := apart (.head called reaches)

/-! ## Refused calls -/

/-- Overrides a rule of a draft that is changed in place.  What is changed before an error is thrown
    stays changed. -/
def overrideIn (name : String) (p : Production) : EStateM GrammarError Draft Unit := do
  match Rule.ofName? name with
  | none => throw (.unknownRule name)
  | some r =>
    if (← get).overridden.contains r then throw (.duplicateRule r)
    modify fun d => { d with overridden := r :: d.overridden }
    modify fun d =>
      { d with entries := .ofFn fun q => if q = r then some p else d.entries.get q }

/-- A call in place does what a call does, and a refused one leaves the draft as it was. -/
theorem run_overrideIn (d : Draft) (name : String) (p : Production) :
    (overrideIn name p).run d =
      match d.override name p with
      | .ok d' => .ok () d'
      | .error e => .error e d := by
  unfold overrideIn override
  cases Rule.ofName? name with
  | none => rfl
  | some r =>
    dsimp only
    rw [EStateM.run_bind, EStateM.run_get]
    dsimp only
    by_cases again : d.overridden.contains r = true
    · rw [if_pos again, if_pos again, EStateM.run_bind, EStateM.run_throw]
    · rw [if_neg again, if_neg again, EStateM.run_bind, EStateM.run_modify]
      dsimp only
      rw [EStateM.run_modify]

/-- The draft that a call in place leaves, whether it is accepted or refused. -/
def afterCall (d : Draft) (call : String × Production) : Draft :=
  match (overrideIn call.1 call.2).run d with
  | .ok _ d' => d'
  | .error _ d' => d'

/-- The draft that calls leave, one after the other. -/
def afterCalls (d : Draft) (calls : List (String × Production)) : Draft := calls.foldl afterCall d

theorem afterCall_of_ok (made : d.override name p = .ok d') : d.afterCall (name, p) = d' := by
  rw [afterCall, run_overrideIn, made]

theorem afterCall_of_error {e : GrammarError} (refused : d.override name p = .error e) :
    d.afterCall (name, p) = d := by
  rw [afterCall, run_overrideIn, refused]

/-- The rules that a draft counts as overridden are those that calls have named. -/
theorem mem_overridden_afterCalls {calls : List (String × Production)} {r : Rule} :
    r ∈ (d.afterCalls calls).overridden ↔
      r ∈ d.overridden ∨ ∃ call ∈ calls, Rule.ofName? call.1 = some r := by
  induction calls generalizing d with
  | nil => simp [afterCalls]
  | cons call calls ih =>
    -- one call adds its rule, or it is refused and adds none
    have step : r ∈ (d.afterCall call).overridden ↔
        r ∈ d.overridden ∨ Rule.ofName? call.1 = some r := by
      obtain ⟨name, p⟩ := call
      cases made : d.override name p with
      | ok d' =>
        rw [afterCall_of_ok made]
        obtain ⟨x, named, rfl⟩ := override_eq_ok made
        rw [named, List.mem_cons, or_comm, Option.some.injEq, eq_comm]
      | error e =>
        rw [afterCall_of_error made]
        refine ⟨.inl, fun h => h.elim id fun named => ?_⟩
        -- it was refused since the name is unknown, or since the rule was overridden before
        rcases override_eq_error_iff.mp made with ⟨unknown, -⟩ | ⟨x, known, again, -⟩
        · cases unknown.symm.trans named
        · rwa [Option.some.inj (named.symm.trans known)]
    rw [List.exists_mem_cons_iff, ← or_assoc, ← step]
    exact ih

end Draft

/-- Overriding a rule changes nothing for the others that do not come to it by calls: in both
    grammars they have the same plans, and each text is read as them with the same tree and the same
    mistakes.  And a call that is refused, because it names no rule or one that an earlier call has
    named, changes nothing at all: whatever calls follow, the draft is finished as without it. -/
theorem overrides_isolated (d : Draft) :
    (∀ name p x d' g g', Rule.ofName? name = some x → d.override name p = .ok d' →
      d.finish = .ok g → d'.finish = .ok g' → ∀ r, ¬ g.productions.Reaches r x →
        g'.plans.get r = g.plans.get r ∧
          ∀ source file mode, g'.readSource source file r mode = g.readSource source file r mode) ∧
    (∀ before name p,
      ((∃ e, (d.afterCalls before).override name p = .error e) ↔
        Rule.ofName? name = none ∨ ∃ r, Rule.ofName? name = some r ∧
          (r ∈ d.overridden ∨ ∃ call ∈ before, Rule.ofName? call.1 = some r)) ∧
      ((∃ e, (d.afterCalls before).override name p = .error e) → ∀ after,
        (d.afterCalls (before ++ (name, p) :: after)).finish
          = (d.afterCalls (before ++ after)).finish)) := by
  refine ⟨?_, fun before name p => ⟨?_, ?_⟩⟩
  · -- what does not reach the overridden rule is planned and read as before
    intro name p x d' g g' named made finished finished' r apart
    have agree := Draft.agreeOn_of_override named made finished finished'
    exact ⟨agree.plans_eq finished finished' apart,
      agree.readSource_eq finished finished' apart⟩
  · -- a call is refused for an unknown name or for a rule that was overridden before
    simp only [Draft.override_eq_error_iff, Draft.mem_overridden_afterCalls]
    constructor
    · rintro ⟨e, ⟨unknown, -⟩ | ⟨r, known, again, -⟩⟩
      · exact .inl unknown
      · exact .inr ⟨r, known, again⟩
    · rintro (unknown | ⟨r, known, again⟩)
      · exact ⟨_, .inl ⟨unknown, rfl⟩⟩
      · exact ⟨_, .inr ⟨r, known, again, rfl⟩⟩
  · -- and a refused call leaves no trace
    rintro ⟨e, refused⟩ after
    rw [Draft.afterCalls, Draft.afterCalls, List.foldl_append, List.foldl_append, List.foldl_cons]
    rw [Draft.afterCalls] at refused
    rw [Draft.afterCall_of_error refused]

namespace Standard

set_option maxRecDepth 100000

/-- A fragment that declares variables. -/
def fragmentWithVariables : Production :=
  .sequence
    [word .fragment, rule .fragmentName, .optional (rule .variableDefinitions), rule .typeCondition,
     .optional (rule .directives), rule .selectionSet]

/-- The standard table with such fragments. -/
def withFragmentVariables : Productions :=
  .ofFn fun r => if r = .fragmentDefinition then fragmentWithVariables else productions.get r

/-- Only a document may be empty, with the override as without it. -/
theorem nullableRules_withFragmentVariables :
    withFragmentVariables.nullableRules.get = (· == .document) := by
  have all : ∀ r ∈ Rule.all, withFragmentVariables.nullableRules.get r = (r == .document) := by
    decide +kernel
  exact funext fun r => all r (Rule.mem_all r)

/-- Each left call goes down in the order of the rules, with the override as without it. -/
theorem ranked_withFragmentVariables :
    withFragmentVariables.Ranked withFragmentVariables.nullableRules.get rank := by
  rw [nullableRules_withFragmentVariables]
  have closed : ∀ r ∈ Rule.all, (withFragmentVariables.get r).nullable (· == .document) = true →
      (r == .document) = true := by
    decide +kernel
  have falls : ∀ r ∈ Rule.all, ∀ q ∈ (withFragmentVariables.get r).leftCalls (· == .document),
      rank q < rank r := by
    decide +kernel
  have repeats : ∀ r ∈ Rule.all,
      (withFragmentVariables.get r).repeatsNullable (· == .document) = false := by
    decide +kernel
  exact ⟨fun r => closed r (Rule.mem_all r), fun r => falls r (Rule.mem_all r), ranked.bounded,
    fun r => repeats r (Rule.mem_all r)⟩

/-- The rules that a value is made of. -/
def valueRules : List Rule :=
  [.value, .variable, .booleanValue, .nullValue, .enumValue, .listValue, .objectValue, .objectField]

end Standard

/-- Fragments may be given variables; how a value is read does not depend on it, and to give them
    variables once more is refused. -/
theorem overrides_isolated_fragmentVariables :
    ∃ d' g', Standard.draft.override "FragmentDefinition" Standard.fragmentWithVariables = .ok d' ∧
      d'.finish = .ok g' ∧ g'.plans.get .value = Standard.grammar.plans.get .value ∧
      (∀ source file mode, g'.readSource source file .value mode
        = Standard.grammar.readSource source file .value mode) ∧
      (Standard.draft.afterCalls [("FragmentDefinition", Standard.fragmentWithVariables),
        ("FragmentDefinition", .token .int)]).finish = .ok g' := by
  have named : Rule.ofName? "FragmentDefinition" = some .fragmentDefinition := by decide +kernel
  obtain ⟨d', made⟩ : ∃ d', Standard.draft.override "FragmentDefinition"
      Standard.fragmentWithVariables = .ok d' := by
    unfold Draft.override
    rw [named]
    exact ⟨_, rfl⟩
  obtain ⟨g', finished⟩ : ∃ g', d'.finish = .ok g' := by
    rw [Draft.finish_of_override named made Standard.finish_eq]
    have told : Standard.withFragmentVariables.plans.isOk = true := by decide +kernel
    cases planned : Standard.withFragmentVariables.plans with
    | error e =>
      rw [planned] at told
      cases told
    | ok plans =>
      exact ⟨_, Grammar.ofProductions_eq_ok Standard.ranked_withFragmentVariables.check_ok planned⟩
  have closed : ∀ q ∈ Standard.valueRules,
      (Standard.productions.get q).calls ⊆ Standard.valueRules := by
    decide
  have apart : ¬ Standard.productions.Reaches .value .fragmentDefinition :=
    Productions.not_reaches_of_closed closed (by decide) (by decide)
  obtain ⟨isolated, refused⟩ := overrides_isolated Standard.draft
  obtain ⟨plans, reads⟩ := isolated _ _ _ _ _ _ named made Standard.finish_eq finished .value apart
  obtain ⟨fails, unchanged⟩ := refused [("FragmentDefinition", Standard.fragmentWithVariables)]
    "FragmentDefinition" (.token .int)
  have again := fails.mpr (.inr ⟨_, named, .inr ⟨_, List.mem_singleton_self _, named⟩⟩)
  refine ⟨d', g', made, finished, plans, reads, (unchanged again []).trans ?_⟩
  rw [← finished, ← Draft.afterCall_of_ok made]
  rfl

end GraphQL
