/-
  Plans have the shape of their productions.

  A plan adds lookahead and follow sets to a production and changes nothing else: forgetting them
  (`Plan.production`) gives the production back.  So what a reading does along a plan can be
  compared with what the production derives.
-/
import GraphQL.Grammar.Draft

namespace GraphQL

/-- Two steps succeed exactly if the first does and the second does with what it gave. -/
theorem bind_eq_ok_iff {ε α β : Type} {x : Except ε α} {f : α → Except ε β} {b : β} :
    x >>= f = .ok b ↔ ∃ a, x = .ok a ∧ f a = .ok b := by
  cases x <;> simp [bind, Except.bind]

/-! ## Forgetting lookahead -/

namespace Plan

mutual

/-- The production that a plan was made of. -/
def production : Plan → Production
  | .token kind _ => .token kind
  | .call rule arg _ => .call rule arg
  | .sequence items => .sequence (productionsOf items)
  | .optional _ body => .optional body.production
  | .repetition false _ body _ => .many body.production
  | .repetition true _ body _ => .atLeastOne body.production
  | .choice branches => .choice (alternativesOf branches)

/-- The productions of plans in a row. -/
def productionsOf : List Plan → List Production
  | [] => []
  | p :: rest => p.production :: productionsOf rest

/-- The alternatives of the branches of a choice. -/
def alternativesOf : List (Gate × Lookahead × Plan) → List (Gate × Production)
  | [] => []
  | (gate, _, p) :: rest => (gate, p.production) :: alternativesOf rest

end

/-- A branch of a plan comes from an alternative with the same gate. -/
theorem mem_alternativesOf {gate : Gate} {ahead : Lookahead} {p : Plan}
    {branches : List (Gate × Lookahead × Plan)} (h : (gate, ahead, p) ∈ branches) :
    (gate, p.production) ∈ alternativesOf branches := by
  induction branches with
  | nil => cases h
  | cons branch rest ih =>
    rcases List.mem_cons.mp h with rfl | h
    · exact List.mem_cons_self
    · exact List.mem_cons_of_mem _ (ih h)

end Plan

namespace Productions

variable {g : Productions}

/-! ## The paths of branches -/

/-- Where branches can be told apart, it is by their openings to one depth. -/
theorem paths_of_resolveFrom {branches : List (List Production)} {depth more : Nat} {found : Nat}
    {paths : List (List Path)} (h : g.resolveFrom branches depth more = .ok (found, paths)) :
    paths = branches.map (g.openings found) := by
  induction more generalizing depth with
  | zero =>
    simp only [resolveFrom] at h
    split at h
    · cases h; rfl
    · cases h
  | succ more ih =>
    simp only [resolveFrom] at h
    split at h
    · cases h; rfl
    · exact ih h

theorem paths_of_resolve {branches : List (List Production)} {depth : Nat}
    {paths : List (List Path)} (h : g.resolve branches = .ok (depth, paths)) :
    paths = branches.map (g.openings depth) := paths_of_resolveFrom h

/-- The lookahead of an optional part. -/
theorem resolveOptional_eq_ok {rule : Rule} {inside next : List Production} {ahead : Lookahead}
    (h : g.resolveOptional rule inside next = .ok ahead) :
    g.resolve [inside, next]
        = .ok (ahead.depth, [g.openings ahead.depth inside, g.openings ahead.depth next]) ∧
      ahead.paths = g.openings ahead.depth inside := by
  unfold resolveOptional at h
  split at h
  · cases h
  · rename_i depth paths hr
    cases h
    have hp := paths_of_resolve hr
    subst hp
    exact ⟨hr, rfl⟩

/-- The lookaheads of the alternatives of a choice. -/
theorem resolveChoice_eq_ok {rule : Rule} {branches : List (List Production)}
    {aheads : List Lookahead} (h : g.resolveChoice rule branches = .ok aheads) :
    ∃ depth, g.resolve branches = .ok (depth, branches.map (g.openings depth)) ∧
      aheads = branches.map fun b => ⟨depth, g.openings depth b⟩ := by
  unfold resolveChoice at h
  split at h
  · cases h
  · rename_i depth paths hr
    cases h
    have hp := paths_of_resolve hr
    subst hp
    exact ⟨depth, hr, by simp⟩

/-! ## How plans are made

  One lemma for each form of production: what a plan of it consists of. -/

section Making

variable {rule : Rule} {next : List Production} {plan : Plan}

/-- The plan of a row is a row of plans. -/
theorem plan_sequence {items : List Production}
    (h : g.plan rule next (.sequence items) = .ok plan) :
    ∃ plans, g.planRow rule next items = .ok plans ∧ plan = .sequence plans := by
  obtain ⟨plans, hplans, h⟩ := bind_eq_ok_iff.mp h
  cases h
  exact ⟨plans, hplans, rfl⟩

/-- The plan of an optional part asks whether to enter it or to go on. -/
theorem plan_optional {body : Production} (h : g.plan rule next (.optional body) = .ok plan) :
    ∃ ahead inner, g.resolveOptional rule (body :: next) next = .ok ahead ∧
      g.plan rule next body = .ok inner ∧ plan = .optional ahead inner := by
  obtain ⟨ahead, hahead, h⟩ := bind_eq_ok_iff.mp h
  obtain ⟨inner, hinner, h⟩ := bind_eq_ok_iff.mp h
  cases h
  exact ⟨ahead, inner, hahead, hinner, rfl⟩

/-- The plan of a repetition asks the same before each round, and what follows a round is a further
    one. -/
theorem plan_many {body : Production} (h : g.plan rule next (.many body) = .ok plan) :
    ∃ ahead inner, g.resolveOptional rule (body :: .many body :: next) next = .ok ahead ∧
      g.plan rule (.many body :: next) body = .ok inner ∧
      plan = .repetition false ahead inner (g.afterRepetition next) := by
  obtain ⟨ahead, hahead, h⟩ := bind_eq_ok_iff.mp h
  obtain ⟨inner, hinner, h⟩ := bind_eq_ok_iff.mp h
  cases h
  exact ⟨ahead, inner, hahead, hinner, rfl⟩

/-- The first round of a repetition of at least one is planned as the others. -/
theorem plan_atLeastOne {body : Production} (h : g.plan rule next (.atLeastOne body) = .ok plan) :
    ∃ ahead inner, g.resolveOptional rule (body :: .many body :: next) next = .ok ahead ∧
      g.plan rule (.many body :: next) body = .ok inner ∧
      plan = .repetition true ahead inner (g.afterRepetition next) := by
  obtain ⟨ahead, hahead, h⟩ := bind_eq_ok_iff.mp h
  obtain ⟨inner, hinner, h⟩ := bind_eq_ok_iff.mp h
  cases h
  exact ⟨ahead, inner, hahead, hinner, rfl⟩

/-- The plan of a choice has a lookahead and a plan for each alternative. -/
theorem plan_choice {alternatives : List (Gate × Production)}
    (h : g.plan rule next (.choice alternatives) = .ok plan) :
    ∃ aheads branches,
      g.resolveChoice rule (alternatives.map fun (_, p) => p :: next) = .ok aheads ∧
      g.planBranches rule next aheads alternatives = .ok branches ∧ plan = .choice branches := by
  obtain ⟨aheads, haheads, h⟩ := bind_eq_ok_iff.mp h
  obtain ⟨branches, hbranches, h⟩ := bind_eq_ok_iff.mp h
  cases h
  exact ⟨aheads, branches, haheads, hbranches, rfl⟩

/-- The first plan of a row has the others as what follows. -/
theorem planRow_cons {p : Production} {rest : List Production} {plans : List Plan}
    (h : g.planRow rule next (p :: rest) = .ok plans) :
    ∃ first others, g.plan rule (rest ++ next) p = .ok first ∧
      g.planRow rule next rest = .ok others ∧ plans = first :: others := by
  obtain ⟨first, hfirst, h⟩ := bind_eq_ok_iff.mp h
  obtain ⟨others, hothers, h⟩ := bind_eq_ok_iff.mp h
  cases h
  exact ⟨first, others, hfirst, hothers, rfl⟩

/-- The branches of a choice are planned one by one, each with its lookahead. -/
theorem planBranches_cons {ahead : Lookahead} {aheads : List Lookahead} {gate : Gate}
    {p : Production} {rest : List (Gate × Production)} {branches : List (Gate × Lookahead × Plan)}
    (h : g.planBranches rule next (ahead :: aheads) ((gate, p) :: rest) = .ok branches) :
    ∃ first others, g.plan rule next p = .ok first ∧
      g.planBranches rule next aheads rest = .ok others ∧
      branches = (gate, ahead, first) :: others := by
  obtain ⟨first, hfirst, h⟩ := bind_eq_ok_iff.mp h
  obtain ⟨others, hothers, h⟩ := bind_eq_ok_iff.mp h
  cases h
  exact ⟨first, others, hfirst, hothers, rfl⟩

end Making

/-! ## The production of a plan -/

mutual

/-- The production of a plan is the one that it was made of. -/
theorem production_of_plan {rule : Rule} :
    (p : Production) → {next : List Production} → {plan : Plan} →
      g.plan rule next p = .ok plan → plan.production = p
  | .token kind, _, plan, h => by
    cases h
    rfl
  | .call callee arg, _, plan, h => by
    cases h
    rfl
  | .sequence items, _, plan, h => by
    -- the plans of a row are those of its items
    obtain ⟨plans, hplans, rfl⟩ := plan_sequence h
    rw [Plan.production, productionsOf_of_planRow items hplans]
  | .optional body, _, plan, h => by
    obtain ⟨ahead, inner, -, hinner, rfl⟩ := plan_optional h
    rw [Plan.production, production_of_plan body hinner]
  | .many body, _, plan, h => by
    obtain ⟨ahead, inner, -, hinner, rfl⟩ := plan_many h
    rw [Plan.production, production_of_plan body hinner]
  | .atLeastOne body, _, plan, h => by
    obtain ⟨ahead, inner, -, hinner, rfl⟩ := plan_atLeastOne h
    rw [Plan.production, production_of_plan body hinner]
  | .choice alternatives, next, plan, h => by
    -- the branches of a choice are those of its alternatives
    obtain ⟨aheads, branches, haheads, hbranches, rfl⟩ := plan_choice h
    obtain ⟨depth, -, rfl⟩ := resolveChoice_eq_ok haheads
    rw [Plan.production, alternativesOf_of_planBranches alternatives (by simp) hbranches]

/-- The productions of plans in a row are those that they were made of. -/
theorem productionsOf_of_planRow {rule : Rule} :
    (ps : List Production) → {next : List Production} → {plans : List Plan} →
      g.planRow rule next ps = .ok plans → Plan.productionsOf plans = ps
  | [], _, plans, h => by
    cases h
    rfl
  | p :: rest, _, plans, h => by
    obtain ⟨first, others, hfirst, hothers, rfl⟩ := planRow_cons h
    rw [Plan.productionsOf, production_of_plan p hfirst, productionsOf_of_planRow rest hothers]

/-- The alternatives of the branches of a choice are those that they were made of. -/
theorem alternativesOf_of_planBranches {rule : Rule} :
    (alternatives : List (Gate × Production)) → {next : List Production} →
      {aheads : List Lookahead} → {branches : List (Gate × Lookahead × Plan)} →
      aheads.length = alternatives.length →
      g.planBranches rule next aheads alternatives = .ok branches →
      Plan.alternativesOf branches = alternatives
  | [], _, aheads, branches, hlen, h => by
    obtain rfl := List.length_eq_zero_iff.mp hlen
    cases h
    rfl
  | (gate, p) :: rest, _, [], branches, hlen, h => by cases hlen
  | (gate, p) :: rest, _, ahead :: aheads, branches, hlen, h => by
    obtain ⟨first, others, hfirst, hothers, rfl⟩ := planBranches_cons h
    rw [Plan.alternativesOf, production_of_plan p hfirst,
      alternativesOf_of_planBranches rest (Nat.succ.inj hlen) hothers]

end

end Productions

/-! ## Finished grammars -/

/-- In a finished grammar the plan of each rule was made of its production, and the table passed
    its checks. -/
theorem plan_of_finish {d : Draft} {g : Grammar} (finished : d.finish = .ok g) :
    g.productions.check = .ok () ∧
      ∀ r, g.productions.plan r [] (g.productions.get r) = .ok (g.plans.get r) := by
  obtain ⟨productions, -, h⟩ := bind_eq_ok_iff.mp finished
  obtain ⟨_, checked, h⟩ := bind_eq_ok_iff.mp h
  obtain ⟨plans, made, h⟩ := bind_eq_ok_iff.mp h
  cases h
  exact ⟨checked, fun r => RuleTable.get_ofFn? made r⟩

/-- Forgetting the lookahead of a finished grammar gives its productions. -/
theorem production_of_finish {d : Draft} {g : Grammar} (finished : d.finish = .ok g) (r : Rule) :
    (g.plans.get r).production = g.productions.get r :=
  Productions.production_of_plan _ ((plan_of_finish finished).2 r)

end GraphQL
