/-
  Openings are what the search finds.

  `openings` is built a demand at a time from the starts of a row, with the number of rules as a
  bound on the calls on a left edge.  Here it is compared with the search that has no such bound
  (`Enumerates`).  In a table that passes its checks the search ends from every row of parts of
  rules, and it finds the openings in the order in which they are listed, before repeats are left
  out (`enumerates_found`).

  The search goes through a production as its starts say: whatever a production begins with, the
  search comes to the row that is left behind that demand, or, if the production matches nothing,
  to the row behind the production (`goesThrough_starts`).  That makes one induction of what would
  need a measure on searches, of the depth that is left, the ranks of the rules on the left and
  the parts that are still to be matched: the depth is the outer induction, the bound on the calls
  is the middle one, and the production the inner.  It is there that repetitions of nothing must be
  ruled out, since the starts of such a round say nothing of the rounds behind it.
-/
import GraphQL.Proofs.LeftRecursion
import GraphQL.Proofs.Openings
import GraphQL.Proofs.StandardGrammar

namespace GraphQL

/-! ## Rows within a rule -/

/-- The parts of a production that stands before a row, each with what stands behind it. -/
inductive Production.Site :
    Production → List Production → Production → List Production → Prop where
  | here {p next} : Site p next p next
  | item {before p after next part rest} (inside : Site p (after ++ next) part rest) :
      Site (.sequence (before ++ p :: after)) next part rest
  | optional {body next part rest} (inside : Site body next part rest) :
      Site (.optional body) next part rest
  | many {body next part rest} (inside : Site body (.many body :: next) part rest) :
      Site (.many body) next part rest
  | atLeastOne {body next part rest} (inside : Site body (.many body :: next) part rest) :
      Site (.atLeastOne body) next part rest
  | branch {gate p alternatives next part rest} (mem : (gate, p) ∈ alternatives)
      (inside : Site p next part rest) : Site (.choice alternatives) next part rest

/-- What a rule can go on with at some place: one of its parts and what stands behind it, or some
    of that.  These are the rows that plans are made of. -/
def Productions.Continuation (g : Productions) (row : List Production) : Prop :=
  ∃ r part rest, (g.get r).Site [] part rest ∧ row <:+ part :: rest

section Repetitions

variable {nullable : Rule → Bool}

/-- Nothing is repeated at a place of a production that is not repeated in the production or behind
    it. -/
theorem Production.Site.sound {p part : Production} {next rest : List Production}
    (site : p.Site next part rest) (sound : repeatsNullableInAll nullable (p :: next) = false) :
    repeatsNullableInAll nullable (part :: rest) = false := by
  induction site with
  | here => exact sound
  | item _ ih =>
    -- behind an item stand the items after it and then the rest of the row
    obtain ⟨inside, behind⟩ := Bool.or_eq_false_iff.mp sound
    obtain ⟨-, others⟩ := repeatsNullableInAll_append.mp inside
    obtain ⟨first, after⟩ := Bool.or_eq_false_iff.mp others
    exact ih (Bool.or_eq_false_iff.mpr ⟨first, repeatsNullableInAll_append.mpr ⟨after, behind⟩⟩)
  | optional _ ih => exact ih sound
  | many _ ih =>
    -- behind the body of a repetition stands a further round, which repeats no more than the whole
    obtain ⟨inside, -⟩ := Bool.or_eq_false_iff.mp sound
    exact ih (Bool.or_eq_false_iff.mpr ⟨(Bool.or_eq_false_iff.mp inside).2, sound⟩)
  | atLeastOne _ ih =>
    obtain ⟨inside, -⟩ := Bool.or_eq_false_iff.mp sound
    exact ih (Bool.or_eq_false_iff.mpr ⟨(Bool.or_eq_false_iff.mp inside).2, sound⟩)
  | branch mem _ ih =>
    obtain ⟨inside, behind⟩ := Bool.or_eq_false_iff.mp sound
    exact ih (Bool.or_eq_false_iff.mpr ⟨repeatsNullable_of_mem mem inside, behind⟩)

/-- Behind a part of a ranked rule nothing that may be empty is repeated. -/
theorem Productions.Continuation.sound {g : Productions} {row : List Production}
    {rank : Rule → Nat} (h : g.Continuation row) (ranked : g.Ranked nullable rank) :
    Production.repeatsNullableInAll nullable row = false := by
  obtain ⟨r, part, rest, site, before, split⟩ := h
  have whole := site.sound (Bool.or_eq_false_iff.mpr ⟨ranked.repeats r, rfl⟩)
  rw [← split] at whole
  exact (Production.repeatsNullableInAll_append.mp whole).2

end Repetitions

/-! ## What is found -/

/-- The paths on which a start goes on: those behind what matches nothing, or its demand with those
    of what is left. -/
def Start.paths (behind : List Path) (deeper : List Production → List Path) : Start → List Path
  | none => behind
  | some (kind, rest) => (deeper rest).map (kind :: ·)

/-- What the search finds, in its order and with its repeats. -/
def Productions.found (g : Productions) : (depth : Nat) → List Production → List Path
  | 0, _ => [[]]
  | depth + 1, row => (g.starts row).flatMap (Start.paths [[]] (g.found depth))

section Distinct

variable {α β : Type} [DecidableEq α]

/-- Nothing is left out of a list in which nothing occurs twice. -/
theorem distinct_eq_self {as : List α} (h : as.Nodup) : distinct as = as := by
  induction as with
  | nil => rfl
  | cons a as ih =>
    obtain ⟨new, others⟩ := List.nodup_cons.mp h
    rw [distinct, ih others, List.filter_eq_self.mpr]
    intro b hb
    have other : b ≠ a := by
      rintro rfl
      exact new hb
    exact decide_eq_true other

/-- What occurs in the first list is left out of the second. -/
theorem distinct_append (as bs : List α) :
    distinct (as ++ bs) = distinct as ++ (distinct bs).filter (· ∉ as) := by
  induction as with
  | nil => simp [distinct]
  | cons a as ih =>
    rw [List.cons_append, distinct, distinct, ih, List.filter_append, List.filter_filter]
    simp only [List.cons_append, List.mem_cons, not_or, Bool.decide_and]

/-- An injective function neither joins nor splits what is distinct. -/
theorem distinct_map [DecidableEq β] {f : α → β} (inj : Function.Injective f) (as : List α) :
    distinct (as.map f) = (distinct as).map f := by
  induction as with
  | nil => rfl
  | cons a as ih =>
    rw [List.map_cons, distinct, distinct, List.map_cons, ih, List.filter_map]
    congr 2
    refine List.filter_congr fun b _ => ?_
    simp [inj.eq_iff]

/-- Repeats may be left out piece by piece. -/
theorem distinct_flatMap_distinct (as : List β) (f : β → List α) :
    distinct (as.flatMap fun a => distinct (f a)) = distinct (as.flatMap f) := by
  induction as with
  | nil => rfl
  | cons a as ih =>
    rw [List.flatMap_cons, List.flatMap_cons, distinct_append, distinct_append, ih,
      distinct_eq_self (nodup_distinct _)]
    simp only [mem_distinct]

end Distinct

/-- The openings are what the search finds, each listed once. -/
theorem distinct_found (g : Productions) (depth : Nat) (row : List Production) :
    distinct (g.found depth row) = g.openings depth row := by
  induction depth generalizing row with
  | zero => rfl
  | succ depth ih =>
    rw [Productions.found, Productions.openings, ← distinct_flatMap_distinct]
    congr 2
    funext start
    cases start with
    | none => rfl
    | some start =>
      obtain ⟨kind, rest⟩ := start
      rw [Start.paths, distinct_map List.cons_injective, ih]

/-! ## The search goes as the starts say -/

/-- What goes on with a row goes on, behind nothing, as the row does, and behind a demand with what
    is left and the row. -/
theorem flatMap_andThen (row : List Production) (later : Unit → List Start) (behind : List Path)
    (deeper : List Production → List Path) (start : Start) :
    (start.andThen row later).flatMap (Start.paths behind deeper)
      = start.paths ((later ()).flatMap (Start.paths behind deeper))
          fun rest => deeper (rest ++ row) := by
  cases start with
  | none => rfl
  | some start => exact List.flatMap_singleton ..

/-- The search goes through a row as some starts say: it ends with what is found behind them, if
    it ends from the row that stands behind, or if none of them matches nothing. -/
def GoesThrough (g : Productions) (nullable : Rule → Bool) (depth : Nat)
    (deeper : List Production → List Path) (starts : List Start) (row : List Production) : Prop :=
  ∀ next behind, Production.repeatsNullableInAll nullable next = false →
    (none ∈ starts → Enumerates g (depth + 1) next behind) →
    Enumerates g (depth + 1) (row ++ next)
      (starts.flatMap (Start.paths behind fun rest => deeper (rest ++ next)))

section Search

variable {g : Productions} {nullable : Rule → Bool} {rank : Rule → Nat} {depth : Nat}
  {deeper : List Production → List Path} {enter : Rule → List Start}

/-- A round of a repetition takes something, so the search comes back to the repetition with less
    depth left. -/
theorem goesThrough_round (ranked : g.Ranked nullable rank)
    (begins : ∀ r, ∀ s ∈ enter r, s.Sound g (g.get r)) {body : Production}
    (sound : (Production.many body).repeatsNullable nullable = false)
    (inside : GoesThrough g nullable depth deeper (body.starts enter) [body]) :
    GoesThrough g nullable depth deeper
      ((body.starts enter).flatMap (Start.andThen [.many body] fun _ => []))
      [body, .many body] := by
  intro next behind soundNext _
  -- behind one round stands the repetition again
  have soundRow : Production.repeatsNullableInAll nullable (.many body :: next) = false :=
    Bool.or_eq_false_iff.mpr ⟨sound, soundNext⟩
  -- a body that may be empty is not repeated, so each round takes something
  have takes : none ∉ body.starts enter := by
    intro nothing
    have emits : Emits g body [] := sound_of_starts begins body none nothing
    have notTaking := (Bool.or_eq_false_iff.mp sound).1
    rw [ranked.nullable_of_emits emits rfl] at notTaking
    cases notTaking
  have round := inside (.many body :: next) [] soundRow fun nothing => absurd nothing takes
  rw [List.flatMap_assoc]
  simp only [flatMap_andThen, List.append_assoc]
  exact round

mutual

/-- The search goes through a production as its starts say, if it goes so through the rules that
    are called on the left, and if it ends wherever less depth is left. -/
theorem goesThrough_starts (ranked : g.Ranked nullable rank)
    (begins : ∀ r, ∀ s ∈ enter r, s.Sound g (g.get r))
    (ends : ∀ row, Production.repeatsNullableInAll nullable row = false →
      Enumerates g depth row (deeper row)) :
    (p : Production) → p.repeatsNullable nullable = false →
      (∀ q ∈ p.leftCalls nullable, GoesThrough g nullable depth deeper (enter q) [g.get q]) →
      GoesThrough g nullable depth deeper (p.starts enter) [p]
  | .token kind, _, _, next, behind, soundNext, _ => by
    have found : Enumerates g (depth + 1) (.token kind :: next) _ := .token (ends next soundNext)
    simpa [Production.starts, Start.paths] using found
  | .call r arg, _, called, next, behind, soundNext, later =>
    .call (called r (List.mem_singleton_self r) next behind soundNext later)
  | .sequence items, sound, called, next, behind, soundNext, later =>
    .sequence (goesThrough_startsOfRow ranked begins ends items sound called next behind soundNext
      later)
  | .optional body, sound, called, next, behind, soundNext, later => by
    have others := later (List.mem_append_right _ (List.mem_singleton_self _))
    have inside := goesThrough_starts ranked begins ends body sound called next behind soundNext
      fun _ => others
    rw [Production.starts, List.flatMap_append, List.flatMap_singleton]
    exact .optional inside others
  | .many body, sound, called, next, behind, soundNext, later => by
    have soundBody := (Bool.or_eq_false_iff.mp sound).2
    have inside := goesThrough_starts ranked begins ends body soundBody called
    have others := later (List.mem_append_right _ (List.mem_singleton_self _))
    have round := goesThrough_round ranked begins sound inside next behind soundNext fun _ => others
    rw [Production.starts, List.flatMap_append, List.flatMap_singleton]
    exact .many round others
  | .atLeastOne body, sound, called, next, behind, soundNext, later => by
    have soundBody := (Bool.or_eq_false_iff.mp sound).2
    have inside := goesThrough_starts ranked begins ends body soundBody called
    exact .atLeastOne (goesThrough_round ranked begins sound inside next behind soundNext later)
  | .choice alternatives, sound, called, next, behind, soundNext, later =>
    goesThrough_startsOfAlternatives ranked begins ends alternatives sound called next behind
      soundNext later

/-- The same, for productions in a row. -/
theorem goesThrough_startsOfRow (ranked : g.Ranked nullable rank)
    (begins : ∀ r, ∀ s ∈ enter r, s.Sound g (g.get r))
    (ends : ∀ row, Production.repeatsNullableInAll nullable row = false →
      Enumerates g depth row (deeper row)) :
    (items : List Production) → Production.repeatsNullableInAll nullable items = false →
      (∀ q ∈ Production.leftCallsOfAll nullable items,
        GoesThrough g nullable depth deeper (enter q) [g.get q]) →
      GoesThrough g nullable depth deeper (Production.startsOfRow enter items) items
  | [], _, _, next, behind, _, later => by
    have found := later (List.mem_singleton_self _)
    rw [Production.startsOfRow, List.flatMap_singleton]
    exact found
  | p :: rest, sound, called, next, behind, soundNext, later => by
    obtain ⟨soundFirst, soundRest⟩ := Bool.or_eq_false_iff.mp sound
    have first := goesThrough_starts ranked begins ends p soundFirst fun q hq =>
      called q (List.mem_append_left _ hq)
    have soundRow := Production.repeatsNullableInAll_append.mpr ⟨soundRest, soundNext⟩
    rw [Production.startsOfRow, List.flatMap_assoc]
    simp only [flatMap_andThen, List.append_assoc]
    refine first (rest ++ next) _ soundRow fun nothing => ?_
    -- behind a first part that matches nothing the next calls are on the left edge too
    have emits : Emits g p [] := sound_of_starts begins p none nothing
    have passed : p.nullable nullable = true := ranked.nullable_of_emits emits rfl
    have others := goesThrough_startsOfRow ranked begins ends rest soundRest fun q hq =>
      called q (List.mem_append_right _ (by rwa [if_pos passed]))
    refine others next behind soundNext fun none => later ?_
    exact List.mem_flatMap.mpr ⟨_, nothing, none⟩

/-- The same, for the alternatives of a choice. -/
theorem goesThrough_startsOfAlternatives (ranked : g.Ranked nullable rank)
    (begins : ∀ r, ∀ s ∈ enter r, s.Sound g (g.get r))
    (ends : ∀ row, Production.repeatsNullableInAll nullable row = false →
      Enumerates g depth row (deeper row)) :
    (alternatives : List (Gate × Production)) →
      Production.repeatsNullableInAlternatives nullable alternatives = false →
      (∀ q ∈ Production.leftCallsOfAlternatives nullable alternatives,
        GoesThrough g nullable depth deeper (enter q) [g.get q]) →
      GoesThrough g nullable depth deeper (Production.startsOfAlternatives enter alternatives)
        [.choice alternatives]
  -- no alternative, and no way to go on
  | [], _, _, _, _, _, _ => .noBranch
  | (gate, p) :: rest, sound, called, next, behind, soundNext, later => by
    obtain ⟨soundFirst, soundRest⟩ := Bool.or_eq_false_iff.mp sound
    have first := goesThrough_starts ranked begins ends p soundFirst fun q hq =>
      called q (List.mem_append_left _ hq)
    have others := goesThrough_startsOfAlternatives ranked begins ends rest soundRest fun q hq =>
      called q (List.mem_append_right _ hq)
    rw [Production.startsOfAlternatives, List.flatMap_append]
    refine .branch (first next behind soundNext fun none => ?_)
      (others next behind soundNext fun none => ?_)
    · exact later (List.mem_append_left _ none)
    · exact later (List.mem_append_right _ none)

end

/-- The search goes through a rule as its starts say, with more calls left than its rank. -/
theorem goesThrough_startsWithin (ranked : g.Ranked nullable rank)
    (ends : ∀ row, Production.repeatsNullableInAll nullable row = false →
      Enumerates g depth row (deeper row))
    {calls : Nat} {r : Rule} (enough : rank r < calls) :
    GoesThrough g nullable depth deeper (g.startsWithin calls r) [g.get r] := by
  induction calls generalizing r with
  | zero => exact absurd enough (Nat.not_lt_zero _)
  | succ calls ih =>
    have called : ∀ q ∈ (g.get r).leftCalls nullable,
        GoesThrough g nullable depth deeper (g.startsWithin calls q) [g.get q] := by
      intro q hq
      have lower := ranked.falls r q hq
      exact ih (by omega)
    exact goesThrough_starts ranked (g.sound_startsWithin calls) ends _ (ranked.repeats r) called

/-- The search ends from each row that repeats nothing that can match nothing. -/
theorem enumerates_found (ranked : g.Ranked nullable rank) (depth : Nat) {row : List Production}
    (sound : Production.repeatsNullableInAll nullable row = false) :
    Enumerates g depth row (g.found depth row) := by
  induction depth generalizing row with
  | zero => exact .full
  | succ depth ih =>
    have through := goesThrough_startsOfRow ranked (g.sound_startsWithin Rule.count) (fun _ => ih)
      row sound fun q _ => goesThrough_startsWithin ranked (fun _ => ih) (ranked.bounded q)
    have found := through [] [[]] rfl fun _ => .ended
    simp only [List.append_nil] at found
    exact found

end Search

/-- The openings of what a rule can go on with, in a table that passes its checks, are just what
    leftmost expansion can emit there: cut off at the depth, or shorter and to the end of the rule.
    And the first demands are those that can come next within the rule. -/
theorem openings_exact {g : Productions} (checked : g.check = .ok ()) {row : List Production}
    (within : g.Continuation row) :
    (∀ depth path, path ∈ g.openings depth row ↔
      (path.length = depth ∧ ∃ rest, Unfolds g row path rest) ∨
        (path.length < depth ∧ Unfolds g row path [])) ∧
    ∀ kind, kind ∈ g.firsts row ↔ ∃ rest, Unfolds g row [kind] rest := by
  obtain ⟨rank, ranked⟩ := Productions.exists_ranked_of_check checked
  have exact : ∀ depth path, path ∈ g.openings depth row ↔
      (path.length = depth ∧ ∃ rest, Unfolds g row path rest) ∨
        (path.length < depth ∧ Unfolds g row path []) := by
    intro depth path
    rw [← distinct_found, mem_distinct, ← opens_iff]
    exact (enumerates_found ranked depth (within.sound ranked)).mem_iff
  refine ⟨exact, ?_⟩
  intro kind
  rw [Productions.firsts, List.mem_filterMap]
  constructor
  · -- a path as long as the depth is the one demand
    rintro ⟨path, mem, first⟩
    cases path with
    | nil => cases first
    | cons k path =>
      cases first
      rcases (exact 1 _).mp mem with ⟨long, rest, h⟩ | ⟨short, -⟩
      · obtain rfl := List.length_eq_zero_iff.mp (Nat.succ.inj long)
        exact ⟨rest, h⟩
      · rw [List.length_cons] at short
        omega
  · -- and what begins with a demand has its path
    rintro ⟨rest, h⟩
    exact ⟨[kind], (exact 1 [kind]).mpr (.inl ⟨rfl, rest, h⟩), rfl⟩

/-- What stands behind the name of a field. -/
def Standard.behindFieldName : List Production :=
  [.optional (rule .arguments), .optional (rule .directives), .optional (rule .selectionSet)]

theorem Standard.continuation_behindFieldName :
    productions.Continuation behindFieldName := by
  have field : productions.get .field
      = .sequence ([.optional (rule .alias), any .name] ++ behindFieldName) := rfl
  refine ⟨.field, .optional (rule .arguments), _, ?_, List.suffix_rfl⟩
  rw [field]
  exact .item .here

/-- Behind the name of a field arguments, a directive or a selection set can begin. -/
theorem openings_exact_behindFieldName :
    Standard.productions.check = .ok () ∧
      Standard.productions.Continuation Standard.behindFieldName ∧
      ∀ kind, kind ∈ [.punctuator .leftParen, .punctuator .at, .punctuator .leftBrace] ↔
        ∃ rest, Unfolds Standard.productions Standard.behindFieldName [kind] rest := by
  obtain ⟨-, next⟩ := openings_exact Standard.ranked.check_ok Standard.continuation_behindFieldName
  have firsts : Standard.productions.firsts Standard.behindFieldName
      = [.punctuator .leftParen, .punctuator .at, .punctuator .leftBrace] := by
    decide +kernel
  rw [firsts] at next
  exact ⟨Standard.ranked.check_ok, Standard.continuation_behindFieldName, next⟩

/-- The analysis of a table ends.  The passes that look for what can match nothing come to one that
    changes nothing.  A table that fails a check is refused without a search.  In one that passes
    them the search ends from each row that a plan is made of, to each depth, and its answer is the
    openings.  Without the first check it would not: from a rule that reaches itself on the left no
    search ends. -/
theorem analysis_ends (g : Productions) :
    g.Passes (fun _ => false) g.nullableRules.get ∧
    (∀ e, g.check = .error e → Grammar.ofProductions g = .error e) ∧
    (g.check = .ok () → ∀ row, g.Continuation row → ∀ depth,
      ∃ paths, Enumerates g depth row paths ∧
        (∀ other, Enumerates g depth row other → other = paths) ∧
        distinct paths = g.openings depth row) ∧
    ∀ r arg rest, Unfolds g [g.get r] [] (.call r arg :: rest) →
      ∀ depth next paths, ¬ Enumerates g (depth + 1) (g.get r :: next) paths := by
  refine ⟨?_, ?_, ?_, ?_⟩
  · -- the passes begin with nothing known, which is right
    have nothing : g.Sound fun _ => false := nofun
    exact nothing.passes
  · -- a table that is refused is not searched
    intro e refused
    rw [Grammar.ofProductions, refused]
    rfl
  · -- in one that is accepted the search ends, and with the openings
    intro checked row within depth
    obtain ⟨rank, ranked⟩ := Productions.exists_ranked_of_check checked
    have search := enumerates_found ranked depth (within.sound ranked)
    exact ⟨g.found depth row, search, fun _ h => search.unique h, distinct_found g depth row⟩
  · -- and it does not end at a rule that comes back to itself
    intro r arg rest recursive depth next paths search
    exact search.not_reaches ⟨arg, rest, recursive⟩ (Nat.succ_pos depth) _ _ (recursive.before next)

/-- In the standard table the search behind the name of a field ends, to the greatest depth; in a
    table with a cycle none does from a rule on it. -/
theorem analysis_ends_behindFieldName :
    (∃ paths, Enumerates Standard.productions maxLookahead Standard.behindFieldName paths) ∧
      ∀ paths, ¬ Enumerates circular maxLookahead [circular.get .document] paths := by
  constructor
  · obtain ⟨-, -, searches, -⟩ := analysis_ends Standard.productions
    obtain ⟨paths, search, -⟩ := searches Standard.ranked.check_ok Standard.behindFieldName
      Standard.continuation_behindFieldName maxLookahead
    exact ⟨paths, search⟩
  · obtain ⟨-, -, -, endless⟩ := analysis_ends circular
    obtain ⟨arg, rest, recursive⟩ := unfolds_circular
    exact endless .document arg rest recursive 2 []

end GraphQL
