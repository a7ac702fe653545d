/-
  Tables that agree on some rules.

  All that is found out about a rule is found out along calls: which demands it begins with, to
  which depth its choices must look, what may follow its tokens.  So let two tables agree on some
  rules that call no others (`AgreeOn`).  The crux is that what is left to match behind a first demand
  calls such rules only, again (`callsOnly_of_starts`): with that the search for paths never leaves
  them, and the openings are the same to every depth (`AgreeOn.openings_eq`), and so are the plans
  (`AgreeOn.plan_eq`).

  Reading goes along calls too.  Two ways to enter rules that agree on what a plan calls read it
  alike (`Plan.read_congr`), so the rules are read alike to every level of nesting, mistakes and
  what is done about them included: all that decides about these stands in the plans.
-/
import GraphQL.Proofs.MistakeOrder
import GraphQL.Reading

namespace GraphQL

/-! ## Starts -/

section Starts

variable {enter enter' : Rule → List Start}

mutual

/-- How a production can begin depends on the rules that it calls, and on no others. -/
theorem starts_congr : (p : Production) → (∀ r ∈ p.calls, enter' r = enter r) →
    p.starts enter' = p.starts enter
  | .token _, _ => rfl
  | .call r _, agree => agree r (List.mem_singleton_self r)
  | .sequence items, agree => startsOfRow_congr items agree
  | .optional body, agree => by rw [Production.starts, Production.starts, starts_congr body agree]
  | .many body, agree => by rw [Production.starts, Production.starts, starts_congr body agree]
  | .atLeastOne body, agree => by
    rw [Production.starts, Production.starts, starts_congr body agree]
  | .choice alternatives, agree => startsOfAlternatives_congr alternatives agree

/-- The same, for productions in a row. -/
theorem startsOfRow_congr : (row : List Production) →
    (∀ r ∈ Production.callsOfAll row, enter' r = enter r) →
    Production.startsOfRow enter' row = Production.startsOfRow enter row
  | [], _ => rfl
  | p :: rest, agree => by
    obtain ⟨first, others⟩ := List.forall_mem_append.mp agree
    rw [Production.startsOfRow, Production.startsOfRow, starts_congr p first,
      startsOfRow_congr rest others]

/-- The same, for the alternatives of a choice. -/
theorem startsOfAlternatives_congr : (alternatives : List (Gate × Production)) →
    (∀ r ∈ Production.callsOfAlternatives alternatives, enter' r = enter r) →
    Production.startsOfAlternatives enter' alternatives
      = Production.startsOfAlternatives enter alternatives
  | [], _ => rfl
  | (_, p) :: rest, agree => by
    obtain ⟨first, others⟩ := List.forall_mem_append.mp agree
    rw [Production.startsOfAlternatives, Production.startsOfAlternatives, starts_congr p first,
      startsOfAlternatives_congr rest others]

end

end Starts

/-! ## What is left behind a start -/

/-- Whether a production calls some rules only. -/
def Production.CallsOnly (within : Rule → Prop) (p : Production) : Prop := ∀ r ∈ p.calls, within r

/-- Whether what is left behind a start calls some rules only. -/
def Start.CallsOnly (within : Rule → Prop) : Start → Prop
  | none => True
  | some (_, rest) => (Production.sequence rest).CallsOnly within

section CallsOnly

variable {within : Rule → Prop} {p body : Production} {row rest : List Production}

theorem callsOnly_nil : (Production.sequence []).CallsOnly within := nofun

theorem callsOnly_cons :
    (Production.sequence (p :: rest)).CallsOnly within ↔
      p.CallsOnly within ∧ (Production.sequence rest).CallsOnly within :=
  List.forall_mem_append

theorem callsOnly_append :
    (Production.sequence (rest ++ row)).CallsOnly within ↔
      (Production.sequence rest).CallsOnly within ∧ (Production.sequence row).CallsOnly within := by
  induction rest with
  | nil => exact ⟨fun h => ⟨callsOnly_nil, h⟩, fun h => h.2⟩
  | cons p rest ih => rw [List.cons_append, callsOnly_cons, ih, callsOnly_cons, and_assoc]

/-- A row begins as its first production does, and as the others do. -/
theorem Start.CallsOnly.andThen {later : Unit → List Start} {first start : Start}
    (h : first.CallsOnly within) (behind : (Production.sequence row).CallsOnly within)
    (others : ∀ s ∈ later (), s.CallsOnly within) (mem : start ∈ first.andThen row later) :
    start.CallsOnly within := by
  cases first with
  | none => exact others start mem
  | some first =>
    obtain rfl := List.mem_singleton.mp mem
    exact callsOnly_append.mpr ⟨h, behind⟩

variable {enter : Rule → List Start}

/-- Behind the start of a round stands the repetition again. -/
theorem callsOnly_of_round (h : body.CallsOnly within)
    (starts : ∀ s ∈ body.starts enter, s.CallsOnly within) {start : Start}
    (mem : start ∈ (body.starts enter).flatMap (Start.andThen [.many body] fun _ => [])) :
    start.CallsOnly within := by
  obtain ⟨first, hfirst, mem⟩ := List.mem_flatMap.mp mem
  have again : (Production.sequence [.many body]).CallsOnly within :=
    callsOnly_cons.mpr ⟨h, callsOnly_nil⟩
  refine (starts first hfirst).andThen again ?_ mem
  exact nofun

mutual

/-- What is left behind a start of a production that calls some rules only calls these rules only,
    if it is so for each of the rules. -/
theorem callsOnly_of_starts (called : ∀ r, within r → ∀ s ∈ enter r, s.CallsOnly within) :
    (p : Production) → p.CallsOnly within → ∀ s ∈ p.starts enter, s.CallsOnly within
  | .token _, _, s, mem => by
    obtain rfl := List.mem_singleton.mp mem
    exact nofun
  | .call r _, h, s, mem => called r (h r (List.mem_singleton_self r)) s mem
  | .sequence items, h, s, mem => callsOnly_of_startsOfRow called items h s mem
  | .optional body, h, s, mem => by
    -- what is within begins, or it is passed over
    rcases List.mem_append.mp mem with mem | mem
    · exact callsOnly_of_starts called body h s mem
    · obtain rfl := List.mem_singleton.mp mem
      trivial
  | .many body, h, s, mem => by
    -- a round begins, or the repetition is passed over
    have inside : body.CallsOnly within := h
    rcases List.mem_append.mp mem with mem | mem
    · exact callsOnly_of_round inside (callsOnly_of_starts called body inside) mem
    · obtain rfl := List.mem_singleton.mp mem
      trivial
  | .atLeastOne body, h, s, mem => by
    have inside : body.CallsOnly within := h
    exact callsOnly_of_round inside (callsOnly_of_starts called body inside) mem
  | .choice alternatives, h, s, mem => callsOnly_of_startsOfAlternatives called alternatives h s mem

/-- The same, for productions in a row. -/
theorem callsOnly_of_startsOfRow (called : ∀ r, within r → ∀ s ∈ enter r, s.CallsOnly within) :
    (row : List Production) → (Production.sequence row).CallsOnly within →
      ∀ s ∈ Production.startsOfRow enter row, s.CallsOnly within
  | [], _, s, mem => by
    obtain rfl := List.mem_singleton.mp mem
    trivial
  | p :: rest, h, s, mem => by
    obtain ⟨first, others⟩ := callsOnly_cons.mp h
    obtain ⟨start, hstart, mem⟩ := List.mem_flatMap.mp mem
    exact (callsOnly_of_starts called p first start hstart).andThen others
      (callsOnly_of_startsOfRow called rest others) mem

/-- The same, for the alternatives of a choice. -/
theorem callsOnly_of_startsOfAlternatives
    (called : ∀ r, within r → ∀ s ∈ enter r, s.CallsOnly within) :
    (alternatives : List (Gate × Production)) → (Production.choice alternatives).CallsOnly within →
      ∀ s ∈ Production.startsOfAlternatives enter alternatives, s.CallsOnly within
  | [], _, s, mem => nomatch mem
  | (_, p) :: rest, h, s, mem => by
    obtain ⟨first, others⟩ := List.forall_mem_append.mp h
    rcases List.mem_append.mp mem with mem | mem
    · exact callsOnly_of_starts called p first s mem
    · exact callsOnly_of_startsOfAlternatives called rest others s mem

end

end CallsOnly

/-! ## Tables that agree -/

namespace Productions

/-- Two tables agree on some rules, which call no others. -/
structure AgreeOn (within : Rule → Prop) (g g' : Productions) : Prop where
  same : ∀ r, within r → g'.get r = g.get r
  closed : ∀ r, within r → (g.get r).CallsOnly within

namespace AgreeOn

variable {within : Rule → Prop} {g g' : Productions} {row next : List Production}

/-- Behind a start of such a rule such rules only are called. -/
theorem callsOnly_startsWithin (h : AgreeOn within g g') (calls : Nat) {r : Rule}
    (inside : within r) : ∀ s ∈ g.startsWithin calls r, s.CallsOnly within := by
  induction calls generalizing r with
  | zero => exact nofun
  | succ calls ih => exact callsOnly_of_starts (fun _ => ih) (g.get r) (h.closed r inside)

theorem startsWithin_eq (h : AgreeOn within g g') (calls : Nat) {r : Rule} (inside : within r) :
    g'.startsWithin calls r = g.startsWithin calls r := by
  induction calls generalizing r with
  | zero => rfl
  | succ calls ih =>
    rw [startsWithin, startsWithin, h.same r inside]
    exact starts_congr _ fun q mem => ih (h.closed r inside q mem)

/-- A row that calls such rules only has the same openings in both tables. -/
theorem openings_eq (h : AgreeOn within g g') (depth : Nat)
    (called : (Production.sequence row).CallsOnly within) :
    g'.openings depth row = g.openings depth row := by
  induction depth generalizing row with
  | zero => rfl
  | succ depth ih =>
    have starts : g'.starts row = g.starts row :=
      startsOfRow_congr row fun r mem => h.startsWithin_eq Rule.count (called r mem)
    rw [openings, openings, starts]
    refine congrArg distinct (List.flatMap_congr fun start mem => ?_)
    -- what is left behind a start is again a row of such calls, with one demand less to find
    have left : start.CallsOnly within :=
      callsOnly_of_startsOfRow (fun _ => h.callsOnly_startsWithin Rule.count) row called start mem
    cases start with
    | none => rfl
    | some start => exact congrArg (List.map (start.1 :: ·)) (ih left)

theorem firsts_eq (h : AgreeOn within g g') (called : (Production.sequence row).CallsOnly within) :
    g'.firsts row = g.firsts row := by
  rw [firsts, firsts, h.openings_eq 1 called]

/-- What may follow a repetition is computed alike where tables agree. -/
theorem afterRepetition_eq (h : AgreeOn within g g')
    (called : (Production.sequence next).CallsOnly within) :
    g'.afterRepetition next = g.afterRepetition next := by
  match next with
  | .token kind :: rest => exact congrArg (AfterRepetition.token kind) (h.firsts_eq called)
  | [] => rfl
  | .call _ _ :: _ => rfl
  | .sequence _ :: _ => rfl
  | .optional _ :: _ => rfl
  | .many _ :: _ => rfl
  | .atLeastOne _ :: _ => rfl
  | .choice _ :: _ => rfl

/-- Branches that call such rules only are told apart in the same way. -/
theorem resolveFrom_eq (h : AgreeOn within g g') {branches : List (List Production)}
    (called : ∀ row ∈ branches, (Production.sequence row).CallsOnly within) (depth more : Nat) :
    g'.resolveFrom branches depth more = g.resolveFrom branches depth more := by
  have paths : ∀ depth, branches.map (g'.openings depth) = branches.map (g.openings depth) :=
    fun depth => List.map_congr_left fun row mem => h.openings_eq depth (called row mem)
  induction more generalizing depth with
  | zero => rw [resolveFrom, resolveFrom, paths]
  | succ more ih => rw [resolveFrom, resolveFrom, paths, ih]

section Plans

variable {rule : Rule}

/-- So is the lookahead of an optional part. -/
theorem resolveOptional_eq (h : AgreeOn within g g') {inside : List Production}
    (called : (Production.sequence inside).CallsOnly within)
    (behind : (Production.sequence next).CallsOnly within) :
    g'.resolveOptional rule inside next = g.resolveOptional rule inside next := by
  have branches : ∀ row ∈ [inside, next], (Production.sequence row).CallsOnly within :=
    List.forall_mem_cons.mpr ⟨called, List.forall_mem_singleton.mpr behind⟩
  rw [resolveOptional, resolveOptional, resolve, resolve, h.resolveFrom_eq branches]

/-- So are the lookaheads of a choice. -/
theorem resolveChoice_eq (h : AgreeOn within g g') {branches : List (List Production)}
    (called : ∀ row ∈ branches, (Production.sequence row).CallsOnly within) :
    g'.resolveChoice rule branches = g.resolveChoice rule branches := by
  rw [resolveChoice, resolveChoice, resolve, resolve, h.resolveFrom_eq called]

/-- Before each of its rounds a repetition calls what its body does and what stands behind it. -/
theorem callsOnly_rounds {body : Production} (called : body.CallsOnly within)
    (behind : (Production.sequence next).CallsOnly within) :
    (Production.sequence (.many body :: next)).CallsOnly within ∧
      (Production.sequence (body :: .many body :: next)).CallsOnly within := by
  have again : (Production.sequence (.many body :: next)).CallsOnly within :=
    callsOnly_cons.mpr ⟨called, behind⟩
  exact ⟨again, callsOnly_cons.mpr ⟨called, again⟩⟩

/-- The rows of a choice call what its alternatives do and what stands behind it. -/
theorem callsOnly_branches {alternatives : List (Gate × Production)}
    (called : (Production.choice alternatives).CallsOnly within)
    (behind : (Production.sequence next).CallsOnly within) :
    ∀ row ∈ alternatives.map fun (_, p) => p :: next,
      (Production.sequence row).CallsOnly within := by
  intro row mem
  obtain ⟨⟨gate, p⟩, chosen, rfl⟩ := List.mem_map.mp mem
  exact callsOnly_cons.mpr ⟨fun r hr => called r (Production.calls_subset_of_mem chosen hr), behind⟩

mutual

/-- A production that calls such rules only, before others that do, has the same plan in both
    tables. -/
theorem plan_eq (h : AgreeOn within g g') : (p : Production) → p.CallsOnly within →
    {next : List Production} → (Production.sequence next).CallsOnly within →
    g'.plan rule next p = g.plan rule next p
  | .token kind, _, next, behind => by
    rw [plan, plan, h.firsts_eq behind]
  | .call callee arg, _, next, behind => by
    rw [plan, plan, h.firsts_eq behind]
  | .sequence items, called, next, behind => by
    rw [plan, plan, h.planRow_eq items called behind]
  | .optional body, called, next, behind => by
    have inside : (Production.sequence (body :: next)).CallsOnly within :=
      callsOnly_cons.mpr ⟨called, behind⟩
    rw [plan, plan, h.resolveOptional_eq inside behind, h.plan_eq body called behind]
  | .many body, called, next, behind => by
    have called : body.CallsOnly within := called
    obtain ⟨again, inside⟩ := callsOnly_rounds called behind
    rw [plan, plan, h.resolveOptional_eq inside behind, h.plan_eq body called again,
      h.afterRepetition_eq behind]
  | .atLeastOne body, called, next, behind => by
    have called : body.CallsOnly within := called
    obtain ⟨again, inside⟩ := callsOnly_rounds called behind
    rw [plan, plan, h.resolveOptional_eq inside behind, h.plan_eq body called again,
      h.afterRepetition_eq behind]
  | .choice alternatives, called, next, behind => by
    rw [plan, plan, h.resolveChoice_eq (callsOnly_branches called behind)]
    refine congrArg (_ >>= ·) (funext fun aheads => ?_)
    rw [h.planBranches_eq alternatives called behind]

/-- The same, for productions in a row. -/
theorem planRow_eq (h : AgreeOn within g g') : (items : List Production) →
    (Production.sequence items).CallsOnly within → {next : List Production} →
    (Production.sequence next).CallsOnly within →
    g'.planRow rule next items = g.planRow rule next items
  | [], _, _, _ => rfl
  | p :: rest, called, next, behind => by
    obtain ⟨first, others⟩ := callsOnly_cons.mp called
    rw [planRow, planRow, h.plan_eq p first (callsOnly_append.mpr ⟨others, behind⟩),
      h.planRow_eq rest others behind]

/-- The same, for the alternatives of a choice. -/
theorem planBranches_eq (h : AgreeOn within g g') : (alternatives : List (Gate × Production)) →
    (Production.choice alternatives).CallsOnly within → {next : List Production} →
    (Production.sequence next).CallsOnly within → {aheads : List Lookahead} →
    g'.planBranches rule next aheads alternatives = g.planBranches rule next aheads alternatives
  | [], _, _, _, [] => rfl
  | [], _, _, _, _ :: _ => rfl
  | _ :: _, _, _, _, [] => rfl
  | (gate, p) :: rest, called, next, behind, ahead :: aheads => by
    obtain ⟨first, others⟩ := List.forall_mem_append.mp called
    rw [planBranches, planBranches, h.plan_eq p first behind, h.planBranches_eq rest others behind]

end

end Plans

end AgreeOn

end Productions

/-! ## Reading -/

namespace Plan

variable {c : Context} {enter enter' : Rule → Bool → List TokenKind → State → State × Ending}

mutual

/-- How a plan is read depends on how the rules are entered that it calls, and on no others. -/
theorem read_congr : (p : Plan) → (∀ r ∈ p.production.calls, enter' r = enter r) → (s : State) →
    p.read c enter' s = p.read c enter s
  | .token _ _, _, _ => rfl
  | .call r arg follow, agree, s => by
    rw [read, read, agree r (List.mem_singleton_self r)]
  | .sequence items, agree, s => readRow_congr items agree s
  | .optional ahead body, agree, s => by rw [read, read, read_congr body agree]
  | .repetition nonempty ahead body after, agree, s => by
    rw [calls_repetition] at agree
    rw [read, read, funext (read_congr body agree)]
  | .choice branches, agree, s => by rw [read, read, readBranch_congr branches agree]

/-- The same, for plans in a row. -/
theorem readRow_congr : (ps : List Plan) →
    (∀ r ∈ (Plan.sequence ps).production.calls, enter' r = enter r) → (s : State) →
    readRow c enter' ps s = readRow c enter ps s
  | [], _, _ => rfl
  | p :: rest, agree, s => by
    rw [calls_cons] at agree
    obtain ⟨first, others⟩ := List.forall_mem_append.mp agree
    rw [readRow, readRow, read_congr p first, funext (readRow_congr rest others)]

/-- The same, for the branches of a choice. -/
theorem readBranch_congr : (branches : List (Gate × Lookahead × Plan)) →
    (∀ r ∈ (Plan.choice branches).production.calls, enter' r = enter r) → (s : State) →
    readBranch c enter' branches s = readBranch c enter branches s
  | [], _, _ => rfl
  | (gate, ahead, body) :: rest, agree, s => by
    obtain ⟨first, others⟩ := List.forall_mem_append.mp agree
    rw [readBranch, readBranch, read_congr body first, readBranch_congr rest others]

end

end Plan

section Finished

variable {within : Rule → Prop} {d d' : Draft} {g g' : Grammar} {r : Rule}

/-- Rules on which two tables agree have the same plans in their grammars. -/
theorem Productions.AgreeOn.plans_eq (h : AgreeOn within g.productions g'.productions)
    (finished : d.finish = .ok g) (finished' : d'.finish = .ok g') (inside : within r) :
    g'.plans.get r = g.plans.get r := by
  have plan := (plan_of_finish finished).2 r
  have plan' := (plan_of_finish finished').2 r
  rw [h.same r inside, h.plan_eq _ (h.closed r inside) callsOnly_nil, plan] at plan'
  exact (Except.ok.inj plan').symm

/-- Such rules are entered alike. -/
theorem Productions.AgreeOn.enter_eq (h : AgreeOn within g.productions g'.productions)
    (finished : d.finish = .ok g) (finished' : d'.finish = .ok g') (mode : Mode) (endToken : Token)
    (levels : Nat) (frames : List Frame) (inside : within r) :
    g'.enter mode endToken levels frames r = g.enter mode endToken levels frames r := by
  induction levels generalizing frames r with
  | zero => rfl
  | succ levels ih =>
    funext constant follow s
    rw [Grammar.enter, Grammar.enter, h.plans_eq finished finished' inside]
    refine congrArg (Context.leave _ r s) (Plan.read_congr _ (fun q mem => ?_) _)
    rw [production_of_finish finished] at mem
    exact ih _ (h.closed r inside q mem)

/-- A text is read alike as such a rule. -/
theorem Productions.AgreeOn.readSource_eq (h : AgreeOn within g.productions g'.productions)
    (finished : d.finish = .ok g) (finished' : d'.finish = .ok g') (inside : within r)
    (source : String) (file : Option String) (mode : Mode) :
    g'.readSource source file r mode = g.readSource source file r mode := by
  have parse : ∀ tokens, g'.parse r tokens mode = g.parse r tokens mode := by
    intro tokens
    rw [Grammar.parse, Grammar.parse, h.enter_eq finished finished' _ _ _ _ inside]
  rw [Grammar.readSource, Grammar.readSource, Grammar.readScan, Grammar.readScan, parse]

end Finished

end GraphQL
