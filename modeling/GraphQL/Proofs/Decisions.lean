/-
  The decisions of a finished grammar.

  A finished grammar has paths for each of its choices that do not hide each other: pair by pair the
  demands of an earlier path and of a later one cannot all be met by the same tokens, unless the
  later path is the shorter one.  What is compared there are demands, and what is read are tokens.
  The crux is that one token never meets two demands that do not overlap, so tokens that are on both
  paths would show that the earlier hides the later (`Path.hides_of_onPath`).  A shorter path can
  only end with its rule, because all others are cut off at one depth (`emits_of_mem_openings`).

  From this both halves follow.  Where two branches match, the later one ends first.  And each path
  chooses its branch on the tokens that meet it and nothing else: an earlier path that matched them
  would have to go on behind their end, where no demand is met (`length_le_of_onPath`).

  The decisions of a rule stand within its plan.  `Plan.Site` leads to them and keeps what the rule
  goes on with there, which the paths of an exit are made of.
-/
import GraphQL.Proofs.Completable
import GraphQL.Proofs.Openings
import GraphQL.Proofs.Prediction
import GraphQL.Proofs.StandardGrammar

namespace GraphQL

/-! ## Paths that do not hide each other -/

section Hiding

variable {c : Context} {p q : Path} {tokens : List Token}

/-- Demands of two paths that the same tokens meet overlap. -/
theorem overlaps_of_onPath (first : c.onPath p tokens = true) (second : c.onPath q tokens = true) :
    ((p.zip q).all fun (a, b) => a.overlaps b) = true := by
  induction p generalizing q tokens with
  | nil => rfl
  | cons a p ih =>
    cases q with
    | nil => rfl
    | cons b q =>
      obtain ⟨meetsFirst, first⟩ := Bool.and_eq_true_iff.mp first
      obtain ⟨meetsSecond, second⟩ := Bool.and_eq_true_iff.mp second
      rw [List.zip_cons_cons, List.all_cons]
      exact Bool.and_eq_true_iff.mpr ⟨overlaps_of_meets meetsFirst meetsSecond, ih first second⟩

/-- Of two paths that the same tokens are on the first hides the second, unless it is longer. -/
theorem Path.hides_of_onPath (first : c.onPath p tokens = true) (second : c.onPath q tokens = true)
    (short : p.length ≤ q.length) : p.hides q = true :=
  Bool.and_eq_true_iff.mpr ⟨decide_eq_true short, overlaps_of_onPath first second⟩

/-- A path that asks for no end of the input is met by no fewer tokens than it has demands. -/
theorem length_le_of_onPath (atEnd : c.endToken.kind = .endOfInput) (noEnd : .endOfInput ∉ p)
    (onPath : c.onPath p tokens = true) : p.length ≤ tokens.length := by
  induction p generalizing tokens with
  | nil => exact Nat.zero_le _
  | cons a p ih =>
    obtain ⟨met, others⟩ := Bool.and_eq_true_iff.mp onPath
    rw [List.mem_cons, not_or] at noEnd
    obtain ⟨notFirst, notLater⟩ := noEnd
    cases tokens with
    | nil =>
      have ends : c.endToken.kind.satisfies a = true := met
      rw [atEnd] at ends
      exact absurd (satisfies_endOfInput ends).symm notFirst
    | cons t tokens => exact Nat.succ_le_succ (ih notLater others)

end Hiding

/-- Without a conflict no branch hides a later one. -/
theorem pairwise_of_firstConflict {i : Nat} {paths : List (List Path)}
    (h : firstConflict i paths = none) :
    paths.Pairwise fun earlier later => hidesSome earlier later = false := by
  induction paths generalizing i with
  | nil => exact .nil
  | cons earlier rest ih =>
    unfold firstConflict at h
    split at h
    · cases h
    · rename_i none
      refine .cons (fun later hlater => ?_) (ih h)
      exact List.findIdx?_eq_none_iff.mp none later hlater

namespace Productions

variable {g : Productions}

/-- Where a depth is accepted, no branch hides a later one at it. -/
theorem pairwise_of_resolveFrom {branches : List (List Production)} {depth more found : Nat}
    {paths : List (List Path)} (h : g.resolveFrom branches depth more = .ok (found, paths)) :
    paths.Pairwise fun earlier later => hidesSome earlier later = false := by
  -- the search goes deeper as long as there is a conflict, so where it stops there is none
  induction more generalizing depth with
  | zero =>
    simp only [resolveFrom] at h
    split at h
    · rename_i told
      cases h
      exact pairwise_of_firstConflict told
    · cases h
  | succ more ih =>
    simp only [resolveFrom] at h
    split at h
    · rename_i told
      cases h
      exact pairwise_of_firstConflict told
    · exact ih h

/-- Branches that are told apart do not hide later ones. -/
theorem pairwise_of_resolve {branches : List (List Production)} {depth : Nat}
    {paths : List (List Path)} (h : g.resolve branches = .ok (depth, paths)) :
    paths.Pairwise fun earlier later => hidesSome earlier later = false := pairwise_of_resolveFrom h

end Productions

/-! ## Places of decisions -/

/-- The parts of a plan, each with what the rule goes on with behind it. -/
inductive Plan.Site : Plan → List Production → Plan → List Production → Prop where
  | here {plan : Plan} {next : List Production} : Site plan next plan next
  | item {before after : List Plan} {p part : Plan} {next rest : List Production}
      (inside : Site p (productionsOf after ++ next) part rest) :
      Site (.sequence (before ++ p :: after)) next part rest
  | optional {ahead : Lookahead} {body part : Plan} {next rest : List Production}
      (inside : Site body next part rest) : Site (.optional ahead body) next part rest
  | repetition {nonempty : Bool} {ahead : Lookahead} {body part : Plan} {after : AfterRepetition}
      {next rest : List Production}
      (inside : Site body (.many body.production :: next) part rest) :
      Site (.repetition nonempty ahead body after) next part rest
  | branch {branches : List (Gate × Lookahead × Plan)} {gate : Gate} {ahead : Lookahead}
      {p part : Plan} {next rest : List Production} (mem : (gate, ahead, p) ∈ branches)
      (inside : Site p next part rest) : Site (.choice branches) next part rest

namespace Plan

/-- What enters an optional part, or opens a repetition. -/
def lookahead? : Plan → Option Lookahead
  | .optional ahead _ => some ahead
  | .repetition _ ahead _ _ => some ahead
  | _ => none

theorem productionsOf_append (ps qs : List Plan) :
    productionsOf (ps ++ qs) = productionsOf ps ++ productionsOf qs := by
  induction ps with
  | nil => rfl
  | cons p ps ih => rw [List.cons_append, productionsOf, productionsOf, ih, List.cons_append]

theorem alternativesOf_eq (branches : List (Gate × Lookahead × Plan)) :
    alternativesOf branches = branches.map fun b => (b.1, b.2.2.production) := by
  induction branches with
  | nil => rfl
  | cons b branches ih => rw [alternativesOf, ih, List.map_cons]

section Made

variable {g : Productions} {rule : Rule} {next : List Production}

/-- A repetition is made in one way, whether it may match nothing or not. -/
theorem plan_of_repetition {nonempty : Bool} {ahead : Lookahead} {body : Plan}
    {after : AfterRepetition}
    (made : g.plan rule next (repetition nonempty ahead body after).production
      = .ok (repetition nonempty ahead body after)) :
    g.resolveOptional rule (body.production :: .many body.production :: next) next = .ok ahead ∧
      g.plan rule (.many body.production :: next) body.production = .ok body := by
  cases nonempty with
  | false =>
    obtain ⟨_, _, resolved, inside, same⟩ := Productions.plan_many made
    obtain ⟨-, rfl, rfl, -⟩ := Plan.repetition.inj same
    exact ⟨resolved, inside⟩
  | true =>
    obtain ⟨_, _, resolved, inside, same⟩ := Productions.plan_atLeastOne made
    obtain ⟨-, rfl, rfl, -⟩ := Plan.repetition.inj same
    exact ⟨resolved, inside⟩

/-- Each plan in a row was made of its production, with those behind it as what follows. -/
theorem plan_of_planRow {before after : List Plan} {p : Plan}
    (h : g.planRow rule next (productionsOf (before ++ p :: after)) = .ok (before ++ p :: after)) :
    g.plan rule (productionsOf after ++ next) p.production = .ok p := by
  induction before with
  | nil =>
    obtain ⟨first, others, hfirst, -, same⟩ := Productions.planRow_cons h
    obtain ⟨rfl, -⟩ := List.cons.inj same
    exact hfirst
  | cons q before ih =>
    obtain ⟨first, others, -, hothers, same⟩ := Productions.planRow_cons h
    obtain ⟨-, rfl⟩ := List.cons.inj same
    exact ih hothers

/-- Each branch of a choice was planned with what follows the choice. -/
theorem plan_of_planBranches {branches : List (Gate × Lookahead × Plan)} {aheads : List Lookahead}
    {gate : Gate} {ahead : Lookahead} {p : Plan}
    (h : g.planBranches rule next aheads (alternativesOf branches) = .ok branches)
    (mem : (gate, ahead, p) ∈ branches) : g.plan rule next p.production = .ok p := by
  induction branches generalizing aheads with
  | nil => cases mem
  | cons b branches ih =>
    cases aheads with
    | nil => cases h
    | cons a aheads =>
      obtain ⟨_, _, _⟩ := b
      obtain ⟨first, others, hfirst, hothers, same⟩ := Productions.planBranches_cons h
      cases same
      rcases List.mem_cons.mp mem with here | mem
      · cases here
        exact hfirst
      · exact ih hothers mem

/-- The branches of a choice have the lookaheads that they were made with. -/
theorem lookaheads_of_planBranches {branches : List (Gate × Lookahead × Plan)}
    {aheads : List Lookahead} (length : aheads.length = (alternativesOf branches).length)
    (h : g.planBranches rule next aheads (alternativesOf branches) = .ok branches) :
    branches.map (·.2.1) = aheads := by
  induction branches generalizing aheads with
  | nil =>
    obtain rfl := List.length_eq_zero_iff.mp length
    rfl
  | cons b branches ih =>
    cases aheads with
    | nil => cases h
    | cons a aheads =>
      obtain ⟨_, _, _⟩ := b
      obtain ⟨first, others, -, hothers, same⟩ := Productions.planBranches_cons h
      cases same
      rw [List.map_cons, ih (Nat.succ.inj length) hothers]

namespace Site

variable {plan part : Plan} {rest : List Production}

/-- Each part of a plan is the plan of its production, before what the rule goes on with there. -/
theorem plan_eq (h : Site plan next part rest)
    (made : g.plan rule next plan.production = .ok plan) :
    g.plan rule rest part.production = .ok part := by
  -- on the way to the part each step takes the plan of a whole apart
  induction h with
  | here => exact made
  | item _ ih =>
    obtain ⟨plans, row, same⟩ := Productions.plan_sequence made
    obtain rfl := Plan.sequence.inj same
    exact ih (plan_of_planRow row)
  | optional _ ih =>
    obtain ⟨ahead, inner, -, body, same⟩ := Productions.plan_optional made
    obtain ⟨-, rfl⟩ := Plan.optional.inj same
    exact ih body
  | repetition _ ih => exact ih (plan_of_repetition made).2
  | branch mem _ ih =>
    obtain ⟨aheads, branches, -, made, same⟩ := Productions.plan_choice made
    obtain rfl := Plan.choice.inj same
    exact ih (plan_of_planBranches made mem)

/-- What a plan and what follows it do not ask for, no part asks for, and nothing behind it. -/
theorem not_mem_demands {e : TokenKind} (h : Site plan next part rest)
    (absent : e ∉ plan.production.demands) (noNext : e ∉ (Production.sequence next).demands) :
    e ∉ part.production.demands ∧ e ∉ (Production.sequence rest).demands := by
  induction h with
  | here => exact ⟨absent, noNext⟩
  | @item before after p part next rest inside ih =>
    -- behind an item stand those after it, and then what follows the row
    rw [production, productionsOf_append, Production.demands, Production.demandsOfAll_append,
      List.mem_append, not_or] at absent
    have absent : e ∉ p.production.demands ∧ e ∉ Production.demandsOfAll (productionsOf after) :=
      not_or.mp fun h => absent.2 (List.mem_append.mpr h)
    refine ih absent.1 fun mem => ?_
    rw [Production.demands, Production.demandsOfAll_append, List.mem_append] at mem
    exact mem.elim absent.2 noNext
  | optional _ ih => exact ih absent noNext
  | @repetition nonempty ahead body part after next rest inside ih =>
    -- behind the body of a repetition stands a further round
    rw [demands_repetition] at absent
    refine ih absent fun mem => ?_
    exact (List.mem_append.mp mem).elim absent noNext
  | branch mem _ ih => exact ih (fun h => absent (demands_branch mem h)) noNext

end Site

end Made

end Plan

/-! ## What decides -/

/-- A path ends before another one does: it is a whole match of a row, which the depth of the
    decision did not cut off. -/
structure EndsBefore (g : Productions) (depth : Nat) (row : List Production) (q p : Path) :
    Prop where
  shorter : q.length < p.length
  short : q.length < depth
  whole : Emits g (.sequence row) q

/-- Of paths that do not hide each other and match the same tokens, the later one ends first. -/
theorem endsBefore_of_onPath {g : Productions} {depth : Nat} {row : List Production}
    {earlier : List Path} (told : hidesSome earlier (g.openings depth row) = false)
    (cut : ∀ p ∈ earlier, p.length ≤ depth) {p q : Path} (hp : p ∈ earlier)
    (hq : q ∈ g.openings depth row) {c : Context} {tokens : List Token}
    (first : c.onPath p tokens = true) (second : c.onPath q tokens = true) :
    EndsBefore g depth row q p := by
  have shorter : q.length < p.length := by
    by_contra long
    have hides := Path.hides_of_onPath first second (Nat.le_of_not_lt long)
    have hidesSome : hidesSome earlier (g.openings depth row) = true :=
      List.any_eq_true.mpr ⟨p, hp, List.any_eq_true.mpr ⟨q, hq, hides⟩⟩
    rw [told] at hidesSome
    cases hidesSome
  have short : q.length < depth := Nat.lt_of_lt_of_le shorter (cut p hp)
  exact ⟨shorter, short, (emits_of_mem_openings hq).1 short⟩

namespace Plan

variable {g : Productions} {rule : Rule} {rest : List Production}

/-- The lookaheads of a choice are the openings of its branches to one depth, and no branch hides a
    later one. -/
theorem told_of_choice {branches : List (Gate × Lookahead × Plan)}
    (made : g.plan rule rest (choice branches).production = .ok (choice branches)) :
    ∃ depth, (∀ b ∈ branches,
        b.2.1 = ⟨depth, g.openings depth (b.2.2.production :: rest)⟩) ∧
      branches.Pairwise fun earlier later =>
        hidesSome earlier.2.1.paths later.2.1.paths = false := by
  obtain ⟨aheads, made', resolved, row, same⟩ := Productions.plan_choice made
  obtain rfl := Plan.choice.inj same
  obtain ⟨depth, found, rfl⟩ := Productions.resolveChoice_eq_ok resolved
  have lookaheads := lookaheads_of_planBranches (by rw [List.length_map, List.length_map]) row
  have told := Productions.pairwise_of_resolve found
  rw [alternativesOf_eq, List.map_map, List.map_map] at lookaheads told
  have each : ∀ b ∈ branches, b.2.1 = ⟨depth, g.openings depth (b.2.2.production :: rest)⟩ :=
    List.map_inj_left.mp lookaheads
  refine ⟨depth, each, (List.pairwise_map.mp told).imp_of_mem ?_⟩
  intro b b' hb hb' apart
  rw [each b hb, each b' hb']
  exact apart

/-- The lookahead of an optional part or a repetition are openings, and they do not hide those of
    what follows. -/
theorem told_of_lookahead {part : Plan} {ahead : Lookahead} (looks : part.lookahead? = some ahead)
    (made : g.plan rule rest part.production = .ok part) :
    (∃ row, ahead.paths = g.openings ahead.depth row) ∧
      hidesSome ahead.paths (g.openings ahead.depth rest) = false := by
  -- the search told what is inside from what follows
  have told : ∀ {inside : List Production}, g.resolveOptional rule inside rest = .ok ahead →
      (∃ row, ahead.paths = g.openings ahead.depth row) ∧
        hidesSome ahead.paths (g.openings ahead.depth rest) = false := by
    intro inside resolved
    obtain ⟨resolved, paths⟩ := Productions.resolveOptional_eq_ok resolved
    have pairwise := Productions.pairwise_of_resolve resolved
    rw [paths]
    exact ⟨⟨inside, rfl⟩, List.rel_of_pairwise_cons pairwise (List.mem_singleton_self _)⟩
  cases part with
  | optional other body =>
    cases looks
    obtain ⟨_, _, resolved, -, same⟩ := Productions.plan_optional made
    obtain ⟨rfl, -⟩ := Plan.optional.inj same
    exact told resolved
  | repetition nonempty other body after =>
    cases looks
    exact told (plan_of_repetition made).1
  | _ => cases looks

end Plan

/-! ## Branches that are chosen -/

/-- Each path that asks for no end of the input is met by tokens that a text can show, one for each
    demand, and none of them is the end. -/
theorem Path.exists_meets {path : Path} (noEnd : .endOfInput ∉ path) :
    ∃ tokens, Concrete tokens ∧ (∀ t ∈ tokens, t.kind ≠ .endOfInput) ∧ Meets tokens path := by
  induction path with
  | nil => exact ⟨[], List.forall_mem_nil _, List.forall_mem_nil _, .nil⟩
  | cons kind path ih =>
    rw [List.mem_cons, not_or] at noEnd
    obtain ⟨notFirst, notLater⟩ := noEnd
    obtain ⟨t, concrete, met⟩ := kind.exists_concrete
    obtain ⟨tokens, others, inside, meets⟩ := ih notLater
    have notEnd : t.kind ≠ .endOfInput := by
      intro ends
      have met : t.kind.satisfies kind = true := met
      rw [ends] at met
      exact notFirst (satisfies_endOfInput met).symm
    exact ⟨t :: tokens, List.forall_mem_cons.mpr ⟨concrete, others⟩,
      List.forall_mem_cons.mpr ⟨notEnd, inside⟩, .cons met meets⟩

/-- The first branch that is open and seen is read. -/
theorem Plan.readBranch_append {c : Context}
    {enter : Rule → Bool → List TokenKind → State → State × Ending}
    {earlier later : List (Gate × Lookahead × Plan)} {gate : Gate} {ahead : Lookahead} {body : Plan}
    {s : State} (passed : ∀ b ∈ earlier, c.sees b.2.1 s.rest = false)
    (isOpen : gate.allows c.constant = true) (seen : c.sees ahead s.rest = true) :
    readBranch c enter (earlier ++ (gate, ahead, body) :: later) s
      = some (body.read c enter s) := by
  induction earlier with
  | nil =>
    rw [List.nil_append, readBranch, isOpen, seen]
    rfl
  | cons b earlier ih =>
    obtain ⟨first, others⟩ := List.forall_mem_cons.mp passed
    obtain ⟨_, _, _⟩ := b
    rw [List.cons_append, readBranch, first, Bool.and_false, ih others]
    rfl

section Finished

variable {d : Draft} {g : Grammar}

/-- Each part of a rule of a finished grammar is the plan of its production there. -/
theorem Plan.Site.plan_of_finish (finished : d.finish = .ok g) {r : Rule} {part : Plan}
    {rest : List Production} (site : Site (g.plans.get r) [] part rest) :
    g.productions.plan r rest part.production = .ok part := by
  have made := (GraphQL.plan_of_finish finished).2 r
  rw [← production_of_finish finished r] at made
  exact site.plan_eq made

/-- The paths of a branch ask for no end of the input, if no production does. -/
theorem Plan.Site.noEnd_of_branch (finished : d.finish = .ok g)
    (reserved : g.productions.NeverExpects .endOfInput) {r : Rule}
    {branches : List (Gate × Lookahead × Plan)} {rest : List Production}
    (site : Site (g.plans.get r) [] (.choice branches) rest) {b : Gate × Lookahead × Plan}
    (hb : b ∈ branches) {depth : Nat} {path : Path}
    (hpath : path ∈ g.productions.openings depth (b.2.2.production :: rest)) :
    .endOfInput ∉ path := by
  have noEnd : TokenKind.endOfInput ∉ (g.plans.get r).production.demands := by
    rw [production_of_finish finished]
    exact reserved r
  obtain ⟨absent, noRest⟩ := site.not_mem_demands noEnd nofun
  refine (emits_of_mem_openings hpath).2 _ reserved fun mem => ?_
  exact (List.mem_append.mp mem).elim (fun h => absent (Plan.demands_branch hb h)) noRest

/-- The tokens of a path of a branch are on no path of an earlier branch. -/
theorem Plan.Site.exists_chosen (finished : d.finish = .ok g)
    (reserved : g.productions.NeverExpects .endOfInput) {r : Rule} {rest : List Production}
    {earlier later : List (Gate × Lookahead × Plan)} {gate : Gate} {ahead : Lookahead} {body : Plan}
    (site : Site (g.plans.get r) [] (.choice (earlier ++ (gate, ahead, body) :: later)) rest)
    (alive : ahead.paths ≠ []) :
    ∃ tokens, Concrete tokens ∧ (∀ t ∈ tokens, t.kind ≠ .endOfInput) ∧
      ∀ c : Context, c.endToken.kind = .endOfInput →
        c.sees ahead tokens = true ∧ ∀ b ∈ earlier, c.sees b.2.1 tokens = false := by
  obtain ⟨depth, each, told⟩ := told_of_choice (site.plan_of_finish finished)
  have here : (gate, ahead, body) ∈ earlier ++ (gate, ahead, body) :: later :=
    List.mem_append_right _ List.mem_cons_self
  have opening : ∀ b ∈ earlier ++ (gate, ahead, body) :: later,
      b.2.1.paths = g.productions.openings depth (b.2.2.production :: rest) := by
    intro b hb
    rw [each b hb]
  obtain ⟨q, hq⟩ := List.exists_mem_of_ne_nil _ alive
  have cut := opening _ here
  obtain ⟨tokens, concrete, inside, meets⟩ :=
    Path.exists_meets (site.noEnd_of_branch finished reserved here (cut ▸ hq))
  refine ⟨tokens, concrete, inside, ?_⟩
  intro c atEnd
  have onPath : c.onPath q tokens = true := by
    have whole : c.onPath (q.take q.length) (tokens ++ []) = true := onPath_take meets q.length
    rwa [List.take_length, List.append_nil] at whole
  refine ⟨List.any_eq_true.mpr ⟨q, hq, onPath⟩, ?_⟩
  intro b hb
  apply List.any_eq_false.mpr
  intro p hp first
  have hb' : b ∈ earlier ++ (gate, ahead, body) :: later := List.mem_append_left _ hb
  have apart : hidesSome b.2.1.paths ahead.paths = false :=
    (List.pairwise_append.mp told).2.2 b hb _ List.mem_cons_self
  have paths := opening b hb'
  have shallow : ∀ p ∈ b.2.1.paths, p.length ≤ depth := by
    rw [paths]
    exact fun _ => length_le_of_mem_openings
  have ends : EndsBefore g.productions depth (body.production :: rest) q p :=
    endsBefore_of_onPath (cut ▸ apart) shallow hp (cut ▸ hq) first onPath
  -- the path that matched would go on behind the last token
  have bound := length_le_of_onPath atEnd
    (site.noEnd_of_branch finished reserved hb' (paths ▸ hp)) first
  have same := meets.length_eq
  have shorter := ends.shorter
  omega

end Finished

/-- The decisions of a finished grammar are determined, and none of its alternatives is dead.  Where
    an earlier branch of a choice matches by one path and a later one by another, the later path
    ends first, and with it the rule; and so does what leaves an optional part or a repetition
    against what enters it.  If nothing asks for the end of the input, each alternative that has a
    path is the one that is read before some tokens, wherever its gate is open. -/
theorem decisions_determined {d : Draft} {g : Grammar} (finished : d.finish = .ok g) (r : Rule) :
    (∀ branches rest, Plan.Site (g.plans.get r) [] (.choice branches) rest →
      branches.Pairwise fun earlier later => ∀ p ∈ earlier.2.1.paths, ∀ q ∈ later.2.1.paths,
        ∀ (c : Context) (tokens : List Token), c.onPath p tokens = true →
          c.onPath q tokens = true →
            EndsBefore g.productions later.2.1.depth (later.2.2.production :: rest) q p) ∧
    (∀ part rest ahead, Plan.Site (g.plans.get r) [] part rest → part.lookahead? = some ahead →
      ∀ p ∈ ahead.paths, ∀ q ∈ g.productions.openings ahead.depth rest,
        ∀ (c : Context) (tokens : List Token), c.onPath p tokens = true →
          c.onPath q tokens = true → EndsBefore g.productions ahead.depth rest q p) ∧
    (g.productions.NeverExpects .endOfInput → ∀ earlier gate ahead body later rest,
      Plan.Site (g.plans.get r) [] (.choice (earlier ++ (gate, ahead, body) :: later)) rest →
      ahead.paths ≠ [] →
      ∃ tokens, Concrete tokens ∧ (∀ t ∈ tokens, t.kind ≠ .endOfInput) ∧
        ∀ c : Context, c.endToken.kind = .endOfInput →
          (c.sees ahead tokens = true ∧ ∀ b ∈ earlier, c.sees b.2.1 tokens = false) ∧
          (gate.allows c.constant = true → ∀ enter s, s.rest = tokens →
            Plan.readBranch c enter (earlier ++ (gate, ahead, body) :: later) s
              = some (body.read c enter s))) := by
  refine ⟨?_, ?_, ?_⟩
  · -- the branches of a choice against each other
    intro branches rest site
    obtain ⟨depth, each, told⟩ := Plan.told_of_choice (site.plan_of_finish finished)
    apply told.imp_of_mem
    intro earlier later hearlier hlater apart p hp q hq c tokens first second
    rw [each earlier hearlier] at apart hp
    rw [each later hlater] at apart hq ⊢
    exact endsBefore_of_onPath apart (fun _ => length_le_of_mem_openings) hp hq first second
  · -- what is inside an optional part or a repetition against what follows it
    intro part rest ahead site looks p hp q hq c tokens first second
    obtain ⟨⟨row, paths⟩, told⟩ := Plan.told_of_lookahead looks (site.plan_of_finish finished)
    have cut : ∀ p ∈ ahead.paths, p.length ≤ ahead.depth := by
      rw [paths]
      exact fun _ => length_le_of_mem_openings
    exact endsBefore_of_onPath told cut hp hq first second
  · -- a branch that is not dead is chosen on some tokens
    intro reserved earlier gate ahead body later rest site alive
    obtain ⟨tokens, concrete, inside, chosen⟩ := site.exists_chosen finished reserved alive
    refine ⟨tokens, concrete, inside, ?_⟩
    intro c atEnd
    obtain ⟨seen, passed⟩ := chosen c atEnd
    refine ⟨⟨seen, passed⟩, ?_⟩
    intro isOpen enter s same
    rw [← same] at seen passed
    exact Plan.readBranch_append passed isOpen seen

/-- A row of directives goes on at an `@` although its rule may end anywhere, and each of the nine
    alternatives of a value is read before some tokens. -/
theorem decisions_determined_standard :
    EndsBefore Standard.productions 1 [] [] [.punctuator .at] ∧
      ∃ branches, Standard.grammar.plans.get .value = .choice branches ∧ branches.length = 9 ∧
        ∀ earlier gate ahead body later, branches = earlier ++ (gate, ahead, body) :: later →
          ∃ tokens, Concrete tokens ∧ ∀ c : Context, c.endToken.kind = .endOfInput →
            c.sees ahead tokens = true ∧ ∀ b ∈ earlier, c.sees b.2.1 tokens = false := by
  constructor
  · have looks : (Standard.grammar.plans.get .directives).lookahead?
        = some ⟨1, [[.punctuator .at]]⟩ := by decide +kernel
    let c : Context := { mode := .tree, endToken := .endOf [], frames := [], constant := false }
    exact (decisions_determined Standard.finish_eq .directives).2.1 _ [] _ .here looks
      [.punctuator .at] (by decide) [] (by decide +kernel) c
      [{ kind := .punctuator .at, text := "@" }] (by decide) rfl
  · have alive : (match Standard.grammar.plans.get .value with
        | .choice branches => branches.length == 9 && branches.all fun b => !b.2.1.paths.isEmpty
        | _ => false) = true := by decide +kernel
    split at alive
    · rename_i branches same
      obtain ⟨length, listed⟩ := Bool.and_eq_true_iff.mp alive
      refine ⟨branches, same, eq_of_beq length, fun earlier gate ahead body later split => ?_⟩
      have site : Plan.Site (Standard.grammar.plans.get .value) []
          (.choice (earlier ++ (gate, ahead, body) :: later)) [] := by
        rw [same, split]
        exact .here
      have here : (gate, ahead, body) ∈ branches := by
        rw [split]
        exact List.mem_append_right _ List.mem_cons_self
      have some : ahead.paths ≠ [] := by simpa using List.all_eq_true.mp listed _ here
      obtain ⟨tokens, concrete, -, chosen⟩ := (decisions_determined Standard.finish_eq .value).2.2
        Standard.reserved earlier gate ahead body later [] site some
      exact ⟨tokens, concrete, fun c atEnd => (chosen c atEnd).1⟩
    · cases alive

end GraphQL
