/-
  Looking further ahead.

  A choice looks as far ahead as it must, and no further than a limit.  Here it is shown that
  looking further never hurts.  The crux is that a path found to one depth, cut off one demand
  earlier, is a path found to the depth below (`take_mem_openings`): a path that ends before the
  depth is not changed by the cut, and one that has the full length is just what the search to the
  lesser depth cuts off.  Cutting two paths at one depth keeps what makes the one hide the other
  (`Path.hides_take`).  So branches that are in conflict to a depth are so to every lesser one.

  From this follows what the search for a depth says when it gives up.  It tries the depths one by
  one and looks at conflicts each time; but that it has failed at the greatest depth already says
  that it has failed at all (`resolveFrom_eq_error_iff`).  And a table that is accepted under a
  limit is accepted under each greater one.
-/
import GraphQL.Proofs.Decisions

namespace GraphQL

/-! ## Paths that are cut off -/

/-- Cutting two paths at one depth keeps that the first hides the second. -/
theorem Path.hides_take {p q : Path} (h : p.hides q = true) (depth : Nat) :
    Path.hides (p.take depth) (q.take depth) = true := by
  obtain ⟨short, overlap⟩ := Bool.and_eq_true_iff.mp h
  have short : p.length ≤ q.length := of_decide_eq_true short
  refine Bool.and_eq_true_iff.mpr ⟨decide_eq_true ?_, ?_⟩
  · rw [List.length_take, List.length_take]
    omega
  · have cut : (p.take depth).zip (q.take depth) = (p.zip q).take depth :=
      (List.take_zipWith ..).symm
    rw [cut, List.all_eq_true]
    intro pair mem
    exact List.all_eq_true.mp overlap pair (List.mem_of_mem_take mem)

/-- Branches that do not hide later ones are not in conflict. -/
theorem firstConflict_of_pairwise {i : Nat} {paths : List (List Path)}
    (h : paths.Pairwise fun earlier later => hidesSome earlier later = false) :
    firstConflict i paths = none := by
  induction h generalizing i with
  | nil => rfl
  | @cons earlier rest apart _ ih =>
    rw [firstConflict, List.findIdx?_eq_none_iff.mpr apart]
    exact ih

namespace Productions

variable {g : Productions} {branches : List (List Production)} {depth more limit : Nat}

/-- A path that is cut off one demand earlier is one that is found to the depth below. -/
theorem take_mem_openings {row : List Production} {path : Path}
    (h : path ∈ g.openings (depth + 1) row) : path.take depth ∈ g.openings depth row := by
  induction depth generalizing row path with
  | zero => exact List.mem_singleton_self []
  | succ depth ih =>
    rw [openings, mem_distinct, List.mem_flatMap] at h ⊢
    obtain ⟨start, mem, found⟩ := h
    refine ⟨start, mem, ?_⟩
    cases start with
    | none =>
      obtain rfl := List.mem_singleton.mp found
      exact List.mem_singleton_self []
    | some start =>
      obtain ⟨kind, rest⟩ := start
      obtain ⟨path, deeper, rfl⟩ := List.mem_map.mp found
      exact List.mem_map_of_mem (ih deeper)

/-- A branch that hides a later one to a depth does so to the depth below. -/
theorem hidesSome_of_deeper {earlier later : List Production}
    (h : hidesSome (g.openings (depth + 1) earlier) (g.openings (depth + 1) later) = true) :
    hidesSome (g.openings depth earlier) (g.openings depth later) = true := by
  obtain ⟨p, hp, h⟩ := List.any_eq_true.mp h
  obtain ⟨q, hq, hides⟩ := List.any_eq_true.mp h
  exact List.any_eq_true.mpr ⟨p.take depth, take_mem_openings hp,
    List.any_eq_true.mpr ⟨q.take depth, take_mem_openings hq, Path.hides_take hides depth⟩⟩

/-- Branches that are not in conflict to a depth are not to the next one. -/
theorem firstConflict_deeper {i : Nat}
    (told : firstConflict i (branches.map (g.openings depth)) = none) :
    firstConflict i (branches.map (g.openings (depth + 1))) = none := by
  have apart := List.pairwise_map.mp (pairwise_of_firstConflict told)
  refine firstConflict_of_pairwise (List.pairwise_map.mpr (apart.imp fun {a b} kept => ?_))
  by_contra hides
  rw [hidesSome_of_deeper (eq_true_of_ne_false hides)] at kept
  cases kept

/-- Branches that are told apart at one depth are told apart at any greater one. -/
theorem firstConflict_of_le {deeper : Nat} (le : depth ≤ deeper)
    (told : firstConflict 0 (branches.map (g.openings depth)) = none) :
    firstConflict 0 (branches.map (g.openings deeper)) = none := by
  induction le with
  | refl => exact told
  | step _ ih => exact firstConflict_deeper ih

/-! ## The search for a depth -/

/-- The search for a depth gives up just where the branches are in conflict to the last depth that
    it tries, with that conflict. -/
theorem resolveFrom_eq_error_iff {pair : Nat × Nat} :
    g.resolveFrom branches depth more = .error pair ↔
      firstConflict 0 (branches.map (g.openings (depth + more))) = some pair := by
  induction more generalizing depth with
  | zero =>
    rw [resolveFrom, Nat.add_zero]
    cases firstConflict 0 (branches.map (g.openings depth)) <;> simp
  | succ more ih =>
    rw [resolveFrom]
    cases found : firstConflict 0 (branches.map (g.openings depth)) with
    | none =>
      rw [firstConflict_of_le (Nat.le_add_right depth (more + 1)) found]
      simp
    | some _ =>
      rw [Nat.add_comm more 1, ← Nat.add_assoc]
      exact ih

/-- It comes to the same end if it may go on for longer. -/
theorem resolveFrom_of_ok {found : Nat × List (List Path)}
    (h : g.resolveFrom branches depth more = .ok found) (further : Nat) :
    g.resolveFrom branches depth (more + further) = .ok found := by
  -- both searches stop at the first depth without a conflict
  induction more generalizing depth with
  | zero =>
    rw [resolveFrom] at h
    cases told : firstConflict 0 (branches.map (g.openings depth)) with
    | none =>
      rw [told] at h
      cases further with
      | zero => rw [Nat.add_zero, resolveFrom, told]; exact h
      | succ further => rw [Nat.zero_add, resolveFrom, told]; exact h
    | some _ =>
      rw [told] at h
      cases h
  | succ more ih =>
    rw [resolveFrom] at h
    rw [Nat.add_right_comm, resolveFrom]
    cases told : firstConflict 0 (branches.map (g.openings depth)) with
    | none =>
      rw [told] at h
      exact h
    | some _ =>
      rw [told] at h
      exact ih h

end Productions

/-! ## The decisions of a table -/

namespace Production

mutual

/-- The decisions of a production that stands before a row, each with the rows of its branches. -/
def decisions (next : List Production) : Production → List (List (List Production))
  | .token _ => []
  | .call _ _ => []
  | .sequence items => decisionsOfRow next items
  | .optional body => [body :: next, next] :: body.decisions next
  | .many body => [body :: .many body :: next, next] :: body.decisions (.many body :: next)
  | .atLeastOne body => [body :: .many body :: next, next] :: body.decisions (.many body :: next)
  | .choice alternatives =>
    (alternatives.map fun (_, p) => p :: next) :: decisionsOfAlternatives next alternatives

/-- The decisions of productions in a row. -/
def decisionsOfRow (next : List Production) : List Production → List (List (List Production))
  | [] => []
  | p :: rest => p.decisions (rest ++ next) ++ decisionsOfRow next rest

/-- The decisions within the alternatives of a choice. -/
def decisionsOfAlternatives (next : List Production) :
    List (Gate × Production) → List (List (List Production))
  | [] => []
  | (_, p) :: rest => p.decisions next ++ decisionsOfAlternatives next rest

end

end Production

namespace Productions

/-- Whether a table is accepted where a choice may look at so many tokens: it passes its checks, and
    for each of its decisions a depth is found. -/
structure Accepted (g : Productions) (limit : Nat) : Prop where
  checked : g.check = .ok ()
  decided : ∀ r, ∀ branches ∈ (g.get r).decisions [],
    ∃ found, g.resolveFrom branches 1 (limit - 1) = .ok found

section Plans

variable {g : Productions} {rule : Rule}

theorem exists_resolveOptional_iff (rule : Rule) {inside next : List Production} :
    (∃ ahead, g.resolveOptional rule inside next = .ok ahead) ↔
      ∃ found, g.resolve [inside, next] = .ok found := by
  unfold resolveOptional
  cases g.resolve [inside, next] <;> simp

/-- The branches of a choice have lookaheads exactly if they can be told apart, one for each. -/
theorem exists_resolveChoice_iff (rule : Rule) {branches : List (List Production)} :
    (∃ aheads, g.resolveChoice rule branches = .ok aheads) ↔
      ∃ found, g.resolve branches = .ok found := by
  unfold resolveChoice
  cases g.resolve branches <;> simp

theorem length_of_resolveChoice {branches : List (List Production)} {aheads : List Lookahead}
    (h : g.resolveChoice rule branches = .ok aheads) : aheads.length = branches.length := by
  obtain ⟨depth, -, rfl⟩ := resolveChoice_eq_ok h
  exact List.length_map _

/-- Two steps and a third, which puts together what they give, succeed if both do. -/
theorem exists_bind₂_iff {ε α β γ : Type} {x : Except ε α} {y : Except ε β} {f : α → β → γ} :
    (∃ c, (do let a ← x; let b ← y; return f a b) = Except.ok c) ↔
      (∃ a, x = .ok a) ∧ ∃ b, y = .ok b := by
  cases x <;> cases y <;> simp [bind, Except.bind, pure, Except.pure]

mutual

/-- A production has a plan exactly if for each of its decisions a depth is found. -/
theorem exists_plan_iff : (p : Production) → {next : List Production} →
    ((∃ plan, g.plan rule next p = .ok plan) ↔
      ∀ branches ∈ p.decisions next, ∃ found, g.resolve branches = .ok found)
  | .token kind, next => ⟨fun _ _ => nofun, fun _ => ⟨_, rfl⟩⟩
  | .call callee arg, next => ⟨fun _ _ => nofun, fun _ => ⟨_, rfl⟩⟩
  | .sequence items, next => by
    -- a row decides what its items decide
    rw [Production.decisions, ← exists_planRow_iff items]
    constructor
    · rintro ⟨plan, made⟩
      obtain ⟨plans, row, -⟩ := plan_sequence made
      exact ⟨plans, row⟩
    · rintro ⟨plans, row⟩
      exact ⟨.sequence plans, bind_eq_ok_iff.mpr ⟨plans, row, rfl⟩⟩
  | .optional body, next => by
    rw [Production.decisions, List.forall_mem_cons, ← exists_plan_iff body,
      ← exists_resolveOptional_iff rule]
    exact exists_bind₂_iff
  | .many body, next => by
    rw [Production.decisions, List.forall_mem_cons, ← exists_plan_iff body,
      ← exists_resolveOptional_iff rule]
    exact exists_bind₂_iff
  | .atLeastOne body, next => by
    rw [Production.decisions, List.forall_mem_cons, ← exists_plan_iff body,
      ← exists_resolveOptional_iff rule]
    exact exists_bind₂_iff
  | .choice alternatives, next => by
    -- a choice is a decision itself, and then come those of its alternatives
    rw [Production.decisions, List.forall_mem_cons, ← exists_resolveChoice_iff rule]
    constructor
    · rintro ⟨plan, made⟩
      obtain ⟨aheads, branches, resolved, row, -⟩ := plan_choice made
      have length := (length_of_resolveChoice resolved).trans (List.length_map _)
      exact ⟨⟨aheads, resolved⟩, (exists_planBranches_iff alternatives length).mp ⟨branches, row⟩⟩
    · rintro ⟨⟨aheads, resolved⟩, decided⟩
      have length := (length_of_resolveChoice resolved).trans (List.length_map _)
      obtain ⟨branches, row⟩ := (exists_planBranches_iff alternatives length).mpr decided
      exact ⟨.choice branches, bind_eq_ok_iff.mpr ⟨aheads, resolved,
        bind_eq_ok_iff.mpr ⟨branches, row, rfl⟩⟩⟩

/-- The same, for productions in a row. -/
theorem exists_planRow_iff : (items : List Production) → {next : List Production} →
    ((∃ plans, g.planRow rule next items = .ok plans) ↔
      ∀ branches ∈ Production.decisionsOfRow next items, ∃ found, g.resolve branches = .ok found)
  | [], next => ⟨fun _ _ => nofun, fun _ => ⟨[], rfl⟩⟩
  | p :: rest, next => by
    rw [Production.decisionsOfRow, List.forall_mem_append, ← exists_plan_iff p,
      ← exists_planRow_iff rest]
    exact exists_bind₂_iff

/-- The same, for the alternatives of a choice. -/
theorem exists_planBranches_iff : (alternatives : List (Gate × Production)) →
    {next : List Production} → {aheads : List Lookahead} →
    aheads.length = alternatives.length →
    ((∃ branches, g.planBranches rule next aheads alternatives = .ok branches) ↔
      ∀ branches ∈ Production.decisionsOfAlternatives next alternatives,
        ∃ found, g.resolve branches = .ok found)
  | [], next, aheads, length => by
    obtain rfl := List.length_eq_zero_iff.mp length
    exact ⟨fun _ _ => nofun, fun _ => ⟨[], rfl⟩⟩
  | (gate, p) :: rest, next, [], length => by cases length
  | (gate, p) :: rest, next, ahead :: aheads, length => by
    rw [Production.decisionsOfAlternatives, List.forall_mem_append, ← exists_plan_iff p,
      ← exists_planBranches_iff rest (Nat.succ.inj length)]
    exact exists_bind₂_iff

end

end Plans

variable {g : Productions} {limit : Nat}

/-- A table becomes a grammar exactly if it is accepted under the limit that is set. -/
theorem exists_grammar_iff :
    (∃ grammar, Grammar.ofProductions g = .ok grammar) ↔ g.Accepted maxLookahead := by
  constructor
  · rintro ⟨grammar, made⟩
    obtain ⟨_, checked, made⟩ := bind_eq_ok_iff.mp made
    obtain ⟨plans, planned, -⟩ := bind_eq_ok_iff.mp made
    exact ⟨checked, fun r => (exists_plan_iff (g.get r)).mp ⟨_, RuleTable.get_ofFn? planned r⟩⟩
  · intro accepted
    have planned : ∀ r, ∃ plan, g.plan r [] (g.get r) = .ok plan :=
      fun r => (exists_plan_iff (g.get r)).mpr (accepted.decided r)
    choose plan planned using planned
    exact ⟨_, Grammar.ofProductions_eq_ok accepted.checked (RuleTable.ofFn?_eq_ok planned)⟩

/-- A greater limit keeps what is accepted. -/
theorem Accepted.deeper (h : g.Accepted limit) (more : Nat) : g.Accepted (limit + more) := by
  refine ⟨h.checked, fun r branches mem => ?_⟩
  obtain ⟨found, resolved⟩ := h.decided r branches mem
  have further : limit + more - 1 = limit - 1 + (limit + more - 1 - (limit - 1)) := by omega
  rw [further]
  exact ⟨found, resolveFrom_of_ok resolved _⟩

end Productions

/-- Looking deeper never makes a conflict.  Branches that are in conflict to a depth are so to the
    depth before; so the search for a depth gives up just where they are in conflict to the greatest
    one, and it names the branches that are.  A table becomes a grammar if for each of its decisions
    a depth is found under the limit that is set, and then one is found under each greater limit,
    with the same paths. -/
theorem deeper_lookahead_keeps_apart (g : Productions) :
    (∀ (branches : List (List Production)) (depth : Nat),
      firstConflict 0 (branches.map (g.openings (depth + 1))) ≠ none →
        firstConflict 0 (branches.map (g.openings depth)) ≠ none) ∧
    (∀ (branches : List (List Production)) (pair : Nat × Nat), g.resolve branches = .error pair ↔
      firstConflict 0 (branches.map (g.openings maxLookahead)) = some pair) ∧
    ((∃ grammar, Grammar.ofProductions g = .ok grammar) ↔ g.Accepted maxLookahead) ∧
    (∀ limit more, g.Accepted limit → g.Accepted (limit + more)) ∧
    (∀ branches found more, g.resolve branches = .ok found →
      g.resolveFrom branches 1 (maxLookahead + more - 1) = .ok found) := by
  refine ⟨?_, fun _ _ => Productions.resolveFrom_eq_error_iff, Productions.exists_grammar_iff,
    fun _ more accepted => accepted.deeper more, ?_⟩
  · -- looking at more tokens brings no conflict
    intro branches depth conflict told
    exact conflict (Productions.firstConflict_deeper told)
  · -- and an accepted search stops at the same depth as before
    intro branches found more resolved
    have further : maxLookahead + more - 1 = maxLookahead - 1 + more := by
      have set : 1 ≤ maxLookahead := by decide
      omega
    rw [further]
    exact Productions.resolveFrom_of_ok resolved more

/-- A type definition and any definition of the type system are in conflict to three tokens, so to
    two, and no choice between them can be made; the standard table is accepted, and would be if
    choices might look at ten tokens. -/
theorem deeper_lookahead_keeps_apart_standard :
    ∃ branches : List (List Production),
      firstConflict 0 (branches.map (Standard.productions.openings 3)) ≠ none ∧
      firstConflict 0 (branches.map (Standard.productions.openings 2)) ≠ none ∧
      Standard.productions.resolve branches = .error (0, 1) ∧
      Standard.productions.Accepted 10 := by
  let branches : List (List Production) :=
    [[.call .typeDefinition .inherited], [.call .typeSystemDefinition .inherited]]
  have conflict :
      firstConflict 0 (branches.map (Standard.productions.openings 3)) = some (0, 1) := by
    decide +kernel
  have deepest : firstConflict 0 (branches.map (Standard.productions.openings 3)) ≠ none := by
    rw [conflict]
    nofun
  have made : Grammar.ofProductions Standard.productions = .ok Standard.grammar :=
    Grammar.ofProductions_eq_ok Standard.ranked.check_ok Standard.plans_eq
  obtain ⟨shallower, gives, accepts, deeper, -⟩ := deeper_lookahead_keeps_apart Standard.productions
  exact ⟨branches, deepest, shallower branches 2 deepest, (gives branches (0, 1)).mpr conflict,
    deeper 3 7 (accepts.mp ⟨_, made⟩)⟩

end GraphQL
