/-
  When lookahead decides as the derivation does.

  Each choice of a plan is made by paths that end with their rule, and a path that is short is met by
  whatever comes.  So that no two branches hide each other is not enough: where a match ends before
  the depth of the choice, the tokens after the rule decide.  A `FollowTable` says which they may be.
  With it, `Productions.settled` computes for each place of a production whether the choice made
  there is the right one in every derivation:

  * where a branch is passed over, each of its paths fails on each way to go on, either against a
    demand of that way or, behind its end, against all that may follow the rule (`Path.apart`);
  * where a rule is called, the table of the callee has all that may come after it.

  What may follow a rule can depend on what it has read: a definition that has had its clause in
  braces may be followed by a brace, and one without may not.  The table is therefore asked with the
  labels that may have been used.
-/
import GraphQL.Proofs.Conformance
import GraphQL.Proofs.Expansion

namespace GraphQL

/-! ## Paths that fail -/

/-- Whether a path fails on all tokens that meet the demands of a match and then one of those that
    may follow. -/
def Path.apart (follow : List TokenKind) : Path → List TokenKind → Bool
  | [], _ => false
  | a :: _, [] => follow.all fun f => !a.overlaps f
  | a :: path, b :: kinds => !a.overlaps b || Path.apart follow path kinds

/-- What lies beyond the length of a path does not matter to it. -/
theorem apart_take {follow : List TokenKind} {path : Path} {kinds : List TokenKind} {depth : Nat}
    (short : path.length ≤ depth) :
    path.apart follow (kinds.take depth) = path.apart follow kinds := by
  induction path generalizing kinds depth with
  | nil => rfl
  | cons a path ih =>
    cases depth with
    | zero => exact absurd short (Nat.not_succ_le_zero _)
    | succ depth =>
      cases kinds with
      | nil => rfl
      | cons b kinds =>
        rw [List.take_succ_cons, Path.apart, Path.apart, ih (Nat.le_of_succ_le_succ short)]

/-- Demands that one token meets overlap.  A token of a category meets that category alone, and each
    category has members. -/
theorem overlaps_of_meets {t : Token} {a b : TokenKind} (ha : t.meets a = true)
    (hb : t.meets b = true) : a.overlaps b = true := by
  have ha : t.kind.satisfies a = true := ha
  have hb : t.kind.satisfies b = true := hb
  cases hk : t.kind.isCategory with
  | false =>
    -- the kind of the token is shared by both demands
    refine List.any_eq_true.mpr ⟨t.kind, TokenKind.mem_all _, ?_⟩
    rw [hk, ha, hb]
    rfl
  | true =>
    -- a token that is filed under a category meets demands for that category only
    obtain ⟨c, hc⟩ : ∃ c, t.kind = .category c := by
      cases hkind : t.kind with
      | category c => exact ⟨c, rfl⟩
      | _ => rw [hkind] at hk; cases hk
    rw [hc] at ha hb
    obtain rfl := satisfies_category ha
    obtain rfl := satisfies_category hb
    cases c <;> decide

/-- Tokens that a text can show. -/
def Concrete (tokens : List Token) : Prop := ∀ t ∈ tokens, t.kind.isCategory = false

section Paths

variable {c : Context} {taken after : List Token} {kinds : List TokenKind}

/-- The first demands of a match are met by its tokens. -/
theorem onPath_take (meets : Meets taken kinds) (depth : Nat) :
    c.onPath (kinds.take depth) (taken ++ after) = true := by
  induction meets generalizing depth with
  | nil =>
    rw [List.take_nil]
    rfl
  | @cons t kind taken kinds met _ ih =>
    cases depth with
    | zero => rfl
    | succ depth =>
      show (t.meets kind && c.onPath (kinds.take depth) (taken ++ after)) = true
      rw [met, ih]
      rfl

/-- A path that is apart from a match fails on its tokens. -/
theorem onPath_eq_false {follow : List TokenKind} {path : Path}
    (apart : path.apart follow kinds = true) (meets : Meets taken kinds)
    (follows : ∃ kind ∈ follow, (c.next after).meets kind = true) :
    c.onPath path (taken ++ after) = false := by
  induction path generalizing taken kinds with
  | nil => cases apart
  | cons a path ih =>
    refine eq_false_of_ne_true fun onPath => ?_
    obtain ⟨first, others⟩ := Bool.and_eq_true_iff.mp onPath
    cases meets with
    | nil =>
      -- the path is longer than the match, so its next demand meets what follows
      obtain ⟨kind, hkind, met⟩ := follows
      have fails := List.all_eq_true.mp apart kind hkind
      rw [overlaps_of_meets first met] at fails
      cases fails
    | @cons t kind taken kinds met meets =>
      -- the first demands overlap at the token, so the path must fail further on
      have overlap : a.overlaps kind = true := overlaps_of_meets first met
      rw [Path.apart, overlap, Bool.not_true, Bool.false_or] at apart
      have fails := ih apart meets
      rw [show (t :: taken ++ after).tail = taken ++ after from rfl, fails] at others
      cases others

end Paths

/-! ## Branches that are told apart -/

/-- Whether all paths of one branch fail on all of another. -/
def separates (follow : List TokenKind) (earlier later : List Path) : Bool :=
  earlier.all fun p => later.all fun q => p.apart follow q

/-- Whether each branch fails on all later ones. -/
def separatesAll (follow : List TokenKind) : List (List Path) → Bool
  | [] => true
  | earlier :: rest => rest.all (separates follow earlier) && separatesAll follow rest

/-- Whether the lookahead of branches chooses rightly before what may follow. -/
def Productions.decides (g : Productions) (follow : List TokenKind)
    (branches : List (List Production)) : Bool :=
  match g.resolve branches with
  | .ok (_, paths) => separatesAll follow paths
  | .error _ => false

theorem separates_of_mem {follow : List TokenKind} {earlier later : List Path}
    (h : separates follow earlier later = true) {p q : Path} (hp : p ∈ earlier) (hq : q ∈ later) :
    p.apart follow q = true := List.all_eq_true.mp (List.all_eq_true.mp h p hp) q hq

section Seeing

variable {g : Productions} {nullable : Rule → Bool} {rank : Rule → Nat}
  {allowed : Rule → List Part → List Token → Prop} {n : Nat} {constant : Bool}
  {row : List Production} {tokens after : List Token} {parts : List Part}
  {c : Context} {ahead : Lookahead}

/-- What is derived is seen. -/
theorem sees_of_derives (ranked : g.Ranked nullable rank)
    (sound : Production.repeatsNullableInAll nullable row = false)
    (paths : ahead.paths = g.openings ahead.depth row)
    (derives : Derives g allowed n constant (.sequence row) tokens parts after) :
    c.sees ahead tokens = true := by
  obtain ⟨taken, kinds, rfl, meets, emits⟩ := derives.exists_emits
  refine List.any_eq_true.mpr ⟨kinds.take ahead.depth, ?_, onPath_take meets _⟩
  rw [paths]
  exact ranked.openings_complete ahead.depth sound emits

/-- What cannot match nothing takes a token. -/
theorem length_lt_of_derives (ranked : g.Ranked nullable rank) {p : Production}
    (taking : p.nullable nullable = false)
    (derives : Derives g allowed n constant p tokens parts after) :
    after.length < tokens.length := by
  obtain ⟨taken, kinds, rfl, meets, emits⟩ := derives.exists_emits
  have something : taken ≠ [] := by
    rintro rfl
    cases meets
    have nothing := ranked.nullable_of_emits emits rfl
    rw [taking] at nothing
    cases nothing
  have positive := List.length_pos_iff.mpr something
  rw [List.length_append]
  omega

/-- What is apart from all that can be derived is not seen. -/
theorem not_sees_of_derives (ranked : g.Ranked nullable rank)
    (sound : Production.repeatsNullableInAll nullable row = false) {follow : List TokenKind}
    {other : List Production} (paths : ahead.paths = g.openings ahead.depth other)
    (apart : separates follow ahead.paths (g.openings ahead.depth row) = true)
    (derives : Derives g allowed n constant (.sequence row) tokens parts after)
    (follows : ∃ kind ∈ follow, (c.next after).meets kind = true) :
    c.sees ahead tokens = false := by
  obtain ⟨taken, kinds, rfl, meets, emits⟩ := derives.exists_emits
  refine List.any_eq_false.mpr fun path hpath => ?_
  -- no path is longer than the depth, so it fails on the whole match as it does on its opening
  have short := length_le_of_mem_openings (paths ▸ hpath)
  have opening := ranked.openings_complete ahead.depth sound emits
  have fails := separates_of_mem apart hpath opening
  rw [apart_take short] at fails
  rw [onPath_eq_false fails meets follows]
  exact Bool.false_ne_true

end Seeing

namespace Productions

variable {g : Productions} {follow : List TokenKind}

/-- What decides an optional part rightly. -/
theorem separates_of_decides {rule : Rule} {inside next : List Production} {ahead : Lookahead}
    (decides : g.decides follow [inside, next] = true)
    (resolved : g.resolveOptional rule inside next = .ok ahead) :
    ahead.paths = g.openings ahead.depth inside ∧
      separates follow ahead.paths (g.openings ahead.depth next) = true := by
  obtain ⟨found, paths⟩ := resolveOptional_eq_ok resolved
  refine ⟨paths, ?_⟩
  rw [Productions.decides, found] at decides
  rw [paths]
  simpa [separatesAll] using decides

/-- What decides a choice rightly. -/
theorem separatesAll_of_decides {rule : Rule} {branches : List (List Production)}
    {aheads : List Lookahead} (decides : g.decides follow branches = true)
    (resolved : g.resolveChoice rule branches = .ok aheads) :
    ∃ depth, aheads = branches.map (fun b => ⟨depth, g.openings depth b⟩) ∧
      separatesAll follow (branches.map (g.openings depth)) = true := by
  obtain ⟨depth, found, rfl⟩ := resolveChoice_eq_ok resolved
  refine ⟨depth, rfl, ?_⟩
  rwa [Productions.decides, found] at decides

end Productions

/-! ## Follow tables -/

/-- What may follow rules. -/
structure FollowTable where
  /-- All demands that may follow a rule. -/
  all : Rule → List TokenKind
  /-- Those that may follow it when at most some labels are used in it. -/
  given : Rule → List Label → List TokenKind

namespace FollowTable

/-- What a table says is right for rules that stand only where they are allowed to. -/
structure Sound (f : FollowTable) (allowed : Rule → List Part → List Token → Prop) : Prop where
  given_subset : ∀ r used, f.given r used ⊆ f.all r
  mono : ∀ r {used more : List Label}, used ⊆ more → f.given r used ⊆ f.given r more
  atEnd : ∀ r used, .endOfInput ∈ f.all r → .endOfInput ∈ f.given r used
  narrow : ∀ r {parts : List Part} {t : Token} {rest : List Token},
    allowed r parts (t :: rest) → (∃ kind ∈ f.all r, t.meets kind = true) →
      ∃ kind ∈ f.given r (parts.map (·.1)), t.meets kind = true

end FollowTable

namespace Productions

variable (g : Productions) (f : FollowTable)

/-- Whether the table of a callee has what may come after a call of it, in a rule that goes on with
    `next`. -/
def covers (rule callee : Rule) (next : List Production) : Bool :=
  (g.openings 1 next).all fun
    | [] => (f.all rule).all (f.all callee).contains
    | kind :: _ => (f.all callee).contains kind

mutual

/-- Whether each choice within a production is the right one.  `filed` are the labels that its rule
    may have used before, and `next` is what the rule goes on with. -/
def settled (rule : Rule) (filed : List Label) (next : List Production) : Production → Bool
  | .token _ => true
  | .call callee _ => covers g f rule callee next
  | .sequence items => settledRow rule filed next items
  | .optional body =>
    g.decides (f.given rule (filed ++ (Production.sequence next).labels)) [body :: next, next]
      && settled rule filed next body
  | .many body =>
    g.decides (f.given rule (filed ++ body.labels ++ (Production.sequence next).labels))
        [body :: .many body :: next, next]
      && settled rule (filed ++ body.labels) (.many body :: next) body
  | .atLeastOne body =>
    g.decides (f.given rule (filed ++ body.labels ++ (Production.sequence next).labels))
        [body :: .many body :: next, next]
      && settled rule (filed ++ body.labels) (.many body :: next) body
  | .choice alternatives =>
    g.decides
        (f.given rule (filed ++ (Production.choice alternatives).labels
          ++ (Production.sequence next).labels))
        (alternatives.map fun (_, p) => p :: next)
      && settledBranches rule filed next alternatives

/-- The same, for productions in a row. -/
def settledRow (rule : Rule) (filed : List Label) (next : List Production) :
    List Production → Bool
  | [] => true
  | p :: rest =>
    settled rule filed (rest ++ next) p && settledRow rule (filed ++ p.labels) next rest

/-- The same, for the alternatives of a choice. -/
def settledBranches (rule : Rule) (filed : List Label) (next : List Production) :
    List (Gate × Production) → Bool
  | [] => true
  | (_, p) :: rest => settled rule filed next p && settledBranches rule filed next rest

end

variable {g f}

/-- What is settled for a choice is settled for each alternative. -/
theorem settled_of_mem {rule : Rule} {filed : List Label} {next : List Production} {gate : Gate}
    {p : Production} {alternatives : List (Gate × Production)} (chosen : (gate, p) ∈ alternatives)
    (h : g.settledBranches f rule filed next alternatives = true) :
    g.settled f rule filed next p = true := by
  induction alternatives with
  | nil => cases chosen
  | cons alternative alternatives ih =>
    obtain ⟨first, others⟩ := Bool.and_eq_true_iff.mp h
    rcases List.mem_cons.mp chosen with rfl | chosen
    · exact first
    · exact ih chosen others

end Productions

end GraphQL
