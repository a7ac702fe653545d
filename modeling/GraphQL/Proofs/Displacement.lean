/-
  A parse does not look at places.

  What a parse decides is decided by the kinds of the tokens that are left, and what it records shows
  their texts.  Places are only carried along.  So with all places forgotten a parse does the same:
  it goes in lockstep with the parse that has them (`lockstep_unplaced`, `enter_unplaced`).  Two lists
  of tokens that are alike in kinds and texts are the same list without places, so their trees are
  alike without places and the same mistakes are found in them (`parse_alike`).

  A token without its place is taken for one that was put in.  It then widens no span, so a tree of
  such tokens has no place at any depth.
-/
import GraphQL.Proofs.Signs
import GraphQL.Proofs.Simulation
import GraphQL.Proofs.TreeContents

namespace GraphQL

/-! ## Things without their places -/

/-- A token without its place. -/
def Token.unplaced (t : Token) : Token := { t with span := {}, inserted := true }

/-- Without its place a token is its sign. -/
theorem Token.unplaced_eq_of_sign_eq {t u : Token} (same : t.sign = u.sign) :
    t.unplaced = u.unplaced := by
  obtain ⟨kind, text⟩ := Prod.mk.inj same
  rw [unplaced, unplaced, kind, text]

/-- Tokens that are alike in kinds and texts are the same without their places. -/
theorem unplaced_of_signs {tokens tokens' : List Token}
    (signs : tokens.map Token.sign = tokens'.map Token.sign) :
    tokens.map Token.unplaced = tokens'.map Token.unplaced := by
  induction tokens generalizing tokens' with
  | nil =>
    rw [List.map_eq_nil_iff.mp signs.symm]
  | cons t rest ih =>
    cases tokens' with
    | nil => cases signs
    | cons t' rest' =>
      obtain ⟨first, others⟩ := List.cons.inj signs
      rw [List.map_cons, List.map_cons, Token.unplaced_eq_of_sign_eq first, ih others]

namespace Node

mutual

/-- A tree without its places. -/
def unplaced : Node → Node
  | ⟨rule, groups, _, recovered⟩ => ⟨rule, unplacedGroups groups, .nowhere, recovered⟩

/-- The groups of a node without their places. -/
def unplacedGroups :
    List (Label × List (Element Node)) → List (Label × List (Element Node))
  | [] => []
  | (label, es) :: rest => (label, unplacedElements es) :: unplacedGroups rest

/-- The elements under one label without their places. -/
def unplacedElements : List (Element Node) → List (Element Node)
  | [] => []
  | .node n :: rest => .node n.unplaced :: unplacedElements rest
  | .token t :: rest => .token t.unplaced :: unplacedElements rest

end

end Node

/-- An element without its places. -/
def Element.unplaced : Element Node → Element Node
  | .node n => .node n.unplaced
  | .token t => .token t.unplaced

/-- A part without its places. -/
def Part.unplaced (part : Part) : Part := (part.1, part.2.unplaced)

/-- A mistake without its place. -/
def SyntaxError.unplaced (e : SyntaxError) : SyntaxError := { e with span := {} }

/-- A state without places. -/
def State.unplaced (s : State) : State where
  rest := s.rest.map Token.unplaced
  parts := s.parts.map Part.unplaced
  errors := s.errors.map SyntaxError.unplaced

/-- The same place of the grammar in a parse without places of the text. -/
def Context.unplaced (c : Context) : Context := { c with endToken := c.endToken.unplaced }

/-! ## Trees -/

namespace Node

/-- The elements of a group lose their places one by one. -/
theorem unplacedElements_eq (es : List (Element Node)) :
    unplacedElements es = es.map Element.unplaced := by
  induction es with
  | nil => rfl
  | cons e rest ih => cases e <;> simp [unplacedElements, Element.unplaced, ih]

/-- Each group keeps its label and loses the places of its elements. -/
theorem unplacedGroups_eq (groups : List (Label × List (Element Node))) :
    unplacedGroups groups = groups.map fun (label, es) => (label, es.map Element.unplaced) := by
  induction groups with
  | nil => rfl
  | cons group rest ih => simp [unplacedGroups, unplacedElements_eq, ih]

/-- Filing things under labels and changing them may be done in either order. -/
theorem group_map {α β : Type} (f : α → β) (parts : List (Label × α)) :
    group (parts.map fun (label, a) => (label, f a))
      = (group parts).map fun (label, as) => (label, as.map f) := by
  simp only [group, List.map_map, Function.comp_def, List.filterMap_map]
  refine List.map_congr_left fun label _ => Prod.ext rfl ?_
  simp only [List.map_filterMap]
  refine List.filterMap_congr fun p _ => ?_
  split <;> rfl

end Node

/-- What has no places covers none. -/
theorem cover_unplaced (parts : List Part) :
    ByteSpan.cover ((parts.map Part.unplaced).map fun (_, e) => e.bytes) = .nowhere := by
  have nowhere : ∀ e : Element Node, e.unplaced.bytes = .nowhere := by
    intro e
    cases e with
    | node n => cases n; rfl
    | token t => rfl
  unfold ByteSpan.cover
  induction parts with
  | nil => rfl
  | cons p rest ih =>
    rw [List.map_cons, List.map_cons, List.foldl_cons]
    rw [ByteSpan.merge_nowhere_left]
    show List.foldl ByteSpan.merge p.unplaced.2.bytes _ = _
    rw [show p.unplaced.2.bytes = .nowhere from nowhere p.2]
    exact ih

/-- The node of a reading without places is that of its parts without places. -/
theorem Node.unplaced_ofParts (rule : Rule) (parts : List Part) (recovered : Bool) :
    (ofParts rule parts recovered).unplaced
      = ofParts rule (parts.map Part.unplaced) recovered := by
  have groups : unplacedGroups (group parts) = group (parts.map Part.unplaced) := by
    rw [unplacedGroups_eq]
    exact (group_map Element.unplaced parts).symm
  rw [ofParts, unplaced, ofParts, groups, cover_unplaced]

/-! ## Single steps -/

section Steps

variable (c : Context) (s : State)

/-- The next token is the same one without its place, also when it is the end of input. -/
theorem next_unplaced (rest : List Token) :
    c.unplaced.next (rest.map Token.unplaced) = (c.next rest).unplaced := by
  cases rest <;> rfl

/-- So is the token behind the next one. -/
theorem second_unplaced (rest : List Token) :
    c.unplaced.second (rest.map Token.unplaced) = (c.second rest).unplaced := by
  rw [Context.second, ← List.map_tail, next_unplaced]
  rfl

/-- A lookahead asks for kinds and texts only, so places do not change what it sees. -/
theorem sees_unplaced (ahead : Lookahead) (rest : List Token) :
    c.unplaced.sees ahead (rest.map Token.unplaced) = c.sees ahead rest := by
  have onPath : ∀ path rest, c.unplaced.onPath path (rest.map Token.unplaced)
      = c.onPath path rest := by
    intro path
    induction path with
    | nil => exact fun _ => rfl
    | cons demand path ih =>
      intro rest
      rw [Context.onPath, Context.onPath, next_unplaced, ← List.map_tail, ih]
      rfl
  simp only [Context.sees, onPath]

/-- A part is filed in the same mode and under the same label. -/
theorem file_unplaced (mode : Mode) (part : Part) :
    s.unplaced.file mode part.unplaced = (s.file mode part).unplaced := by
  cases mode with
  | tree => simp [State.file, State.unplaced]
  | recognize => rfl

/-- The same fault is recorded, without the place where it was found. -/
theorem record_unplaced (fault : Fault) (found : Token) :
    c.unplaced.record fault found.unplaced s.unplaced = (c.record fault found s).unplaced := by
  simp [Context.record, State.unplaced, SyntaxError.unplaced, Context.unplaced, Token.unplaced]

/-- A refused token is recorded as the same fault: redundant input where the end was expected, a
    mismatch elsewhere. -/
theorem recordUnexpected_unplaced (expected : TokenKind) (found : Token) :
    c.unplaced.recordUnexpected expected found.unplaced s.unplaced
      = (c.recordUnexpected expected found s).unplaced := by
  unfold Context.recordUnexpected
  split
  · exact record_unplaced c s (.redundantInput found.text) found
  · exact record_unplaced c s (.mismatch expected found.text) found

/-- Taking a token for a demand files the same token and leaves the same ones behind. -/
theorem take_unplaced (kind : TokenKind) :
    c.unplaced.take kind s.unplaced = (c.take kind s).unplaced := by
  have part : (Label.token kind, Element.token (c.unplaced.next s.unplaced.rest))
      = Part.unplaced (.token kind, .token (c.next s.rest)) := by
    rw [show s.unplaced.rest = s.rest.map Token.unplaced from rfl, next_unplaced]
    rfl
  unfold Context.take
  rw [part, show c.unplaced.mode = c.mode from rfl, file_unplaced,
    show s.unplaced.rest.tail = s.rest.tail.map Token.unplaced from List.map_tail.symm]
  rfl

/-- A demand is met, skipped or refused whatever the places, and with the same ending. -/
theorem consume_unplaced (kind : TokenKind) (follow : List TokenKind) :
    c.unplaced.consume kind follow s.unplaced
      = Prod.map State.unplaced id (c.consume kind follow s) := by
  have left : ∀ s : State, s.unplaced.rest = s.rest.map Token.unplaced := fun _ => rfl
  have meets : ∀ t : Token, t.unplaced.meets kind = t.meets kind := fun _ => rfl
  have follows : ∀ t : Token, t.unplaced.meetsSome follow = t.meetsSome follow := fun _ => rfl
  have text : ∀ t : Token, t.unplaced.text = t.text := fun _ => rfl
  simp only [Context.consume, left, next_unplaced, meets, follows, text, record_unplaced]
  split
  · -- the token meets the demand
    exact congrArg (·, Ending.complete) (take_unplaced c s kind)
  · split
    · -- what may follow is there, so a token is put in
      exact congrArg (·, Ending.complete) (file_unplaced _ c.mode
        (.token kind, .token (.missing kind (c.next s.rest))))
    · simp only [second_unplaced, meets]
      split
      · -- the token behind meets the demand, so one is left out
        rw [← List.map_tail]
        exact congrArg (·, Ending.complete) (take_unplaced c { c.record _ _ s with rest := _ } kind)
      · -- neither
        rfl

/-- Recovery finds the same place to go on at, with the same tokens passed over. -/
theorem search_unplaced (ahead : Lookahead) (expected : TokenKind) (follows : List TokenKind)
    (rest : List Token) :
    c.unplaced.search ahead expected follows (rest.map Token.unplaced)
      = (c.search ahead expected follows rest).map (Prod.map id (List.map Token.unplaced)) := by
  have meets : ∀ t : Token, t.unplaced.meets expected = t.meets expected := fun _ => rfl
  induction rest with
  | nil =>
    have next := next_unplaced c []
    have sees := sees_unplaced c ahead []
    rw [List.map_nil] at next sees
    rw [List.map_nil, Context.search, Context.search, next, sees, meets]
    split
    · rfl
    · split <;> rfl
  | cons t rest ih =>
    have next := next_unplaced c (t :: rest)
    have sees := sees_unplaced c ahead (t :: rest)
    rw [List.map_cons] at next sees
    rw [List.map_cons, Context.search, Context.search, next, sees, meets, ih,
      show t.unplaced.meetsSome follows = t.meetsSome follows from rfl]
    split
    · -- the demand behind the repetition is met
      rfl
    · split
      · -- a further round begins
        rfl
      · split
        · -- the token belongs to a rule outside
          rfl
        · -- the search goes on
          rfl

/-- A repetition recovers without places exactly where it recovers with them, and records the same
    mistakes. -/
theorem recover_unplaced (ahead : Lookahead) (after : AfterRepetition) :
    c.unplaced.recover ahead after s.unplaced
      = (c.recover ahead after s).map State.unplaced := by
  have left : s.unplaced.rest = s.rest.map Token.unplaced := rfl
  have awaited : c.unplaced.awaited after = c.awaited after := by cases after <;> rfl
  have meets : ∀ (t : Token) kind, t.unplaced.meets kind = t.meets kind := fun _ _ => rfl
  have follows : ∀ (t : Token) follow, t.unplaced.meetsSome follow = t.meetsSome follow :=
    fun _ _ => rfl
  simp only [Context.recover, awaited, left, next_unplaced, second_unplaced, meets, follows,
    search_unplaced, show c.unplaced.follows = c.follows from rfl]
  cases c.awaited after with
  | none => rfl
  | some due =>
    obtain ⟨expected, follow⟩ := due
    simp only
    split
    · rfl
    · cases c.search ahead expected c.follows s.rest with
      | none => rfl
      | some found =>
        obtain ⟨resumes, rest⟩ := found
        have recorded := recordUnexpected_unplaced c { s with rest } expected (c.next s.rest)
        cases resumes with
        | true => exact congrArg Context.Recovery.resume recorded
        | false => exact congrArg Context.Recovery.leave recorded

/-- The node that a call makes and its filing do not hang on places. -/
theorem close_unplaced (rule : Rule) (recovered : Bool) (inner : State) :
    c.unplaced.close rule recovered s.unplaced inner.unplaced
      = (c.close rule recovered s inner).unplaced := by
  have node : (Node.ofParts rule inner.unplaced.parts.toList recovered)
      = (Node.ofParts rule inner.parts.toList recovered).unplaced := by
    rw [Node.unplaced_ofParts]
    exact congrArg (Node.ofParts rule · recovered) Array.toList_map
  unfold Context.close
  rw [node]
  exact file_unplaced { s with rest := inner.rest, errors := inner.errors } c.mode
    (.rule rule, .node (.ofParts rule inner.parts.toList recovered))

/-- A call that is left hands the same ending back, with its node filed or dropped as before. -/
theorem leave_unplaced (rule : Rule) (result : State × Ending) :
    c.unplaced.leave rule s.unplaced (Prod.map State.unplaced id result)
      = Prod.map State.unplaced id (c.leave rule s result) := by
  obtain ⟨inner, ending⟩ := result
  cases ending with
  | complete => exact congrArg (·, Ending.complete) (close_unplaced c s rule false inner)
  | aborted => exact congrArg (·, Ending.aborted) (close_unplaced c s rule true inner)
  | stuck =>
    have point : c.unplaced.resyncPoint (inner.rest.map Token.unplaced)
        = (c.resyncPoint inner.rest).map Token.unplaced := by
      unfold Context.resyncPoint
      rw [List.dropWhile_map]
      rfl
    have resumes : ∀ rest, c.unplaced.resumesAt (rest.map Token.unplaced) = c.resumesAt rest := by
      intro rest
      cases rest <;> rfl
    have left : inner.unplaced.rest = inner.rest.map Token.unplaced := rfl
    show c.unplaced.leave rule s.unplaced (inner.unplaced, .stuck) = _
    simp only [Context.leave, left, point, resumes]
    split
    · -- the call goes on at the place where its own rule resumes
      exact congrArg (·, Ending.complete)
        (close_unplaced c s rule true { inner with rest := c.resyncPoint inner.rest })
    · -- it does not resume there, and stays stuck
      exact congrArg (·, Ending.stuck) (close_unplaced c s rule true inner)

/-- A parse without places goes in lockstep with one that has them. -/
theorem lockstep_unplaced : Lockstep c c.unplaced State.unplaced where
  constant := rfl
  length _ := List.length_map ..
  sees ahead s := sees_unplaced c ahead s.rest
  consume kind follow s := consume_unplaced c s kind follow
  recover ahead after s := recover_unplaced c s ahead after
  record fault s := by
    rw [show s.unplaced.rest = s.rest.map Token.unplaced from rfl, next_unplaced]
    exact record_unplaced c s (fault (c.next s.rest).text) (c.next s.rest)

end Steps

/-! ## Rules and whole inputs -/

/-- Entering a rule goes in lockstep, by induction on the levels that are left. -/
theorem enter_unplaced (g : Grammar) (mode : Mode) (endToken : Token) (levels : Nat)
    (frames : List Frame) (rule : Rule) (constant : Bool) (follow : List TokenKind) (s : State) :
    g.enter mode endToken.unplaced levels frames rule constant follow s.unplaced
      = Prod.map State.unplaced id
          (g.enter mode endToken levels frames rule constant follow s) := by
  induction levels generalizing frames rule constant follow s with
  | zero =>
    let c : Context := { mode, endToken, frames, constant }
    exact congrArg (·, Ending.aborted)
      ((lockstep_unplaced c).record (.tooDeep maxDepth rule) s)
  | succ levels ih =>
    let inside := ⟨rule, follow⟩ :: frames
    let c : Context := { mode, endToken, frames := inside, constant }
    have start : ({ s with parts := #[] } : State).unplaced = { s.unplaced with parts := #[] } := by
      simp [State.unplaced]
    have body : (g.plans.get rule).read c.unplaced (g.enter mode endToken.unplaced levels inside)
        { s.unplaced with parts := #[] }
        = Prod.map State.unplaced id ((g.plans.get rule).read c
            (g.enter mode endToken levels inside) { s with parts := #[] }) := by
      rw [← start]
      exact (lockstep_unplaced c).read (ih inside) (g.plans.get rule) { s with parts := #[] }
    rw [Grammar.enter, Grammar.enter]
    exact (congrArg (c.unplaced.leave rule s.unplaced) body).trans (leave_unplaced c s rule _)

/-- What stands behind some tokens is the same for all of them, without its place. -/
theorem unplaced_endOf (tokens : List Token) :
    (Token.endOf tokens).unplaced = ⟨.endOfInput, "", {}, true⟩ := by
  unfold Token.endOf
  split <;> rfl

/-- The tree of a reading without places is its tree without places. -/
theorem treeOf_unplaced (s : State) :
    Grammar.treeOf s.unplaced = (Grammar.treeOf s).map Node.unplaced := by
  unfold Grammar.treeOf State.unplaced
  rw [Array.getElem?_map]
  cases s.parts[0]? with
  | none => rfl
  | some part =>
    obtain ⟨label, e⟩ := part
    cases e <;> rfl

/-- What a parse gives, without its places. -/
def Grammar.Parse.unplaced (p : Grammar.Parse) : Grammar.Parse :=
  ⟨p.tree.map Node.unplaced, p.errors.map SyntaxError.unplaced⟩

/-- Parses of tokens that are alike in kinds and texts give trees that are alike without their
    places, and mistakes that are. -/
theorem parse_alike (g : Grammar) (entry : Rule) (mode : Mode) {tokens tokens' : List Token}
    (signs : tokens.map Token.sign = tokens'.map Token.sign) :
    (g.parse entry tokens mode).unplaced = (g.parse entry tokens' mode).unplaced := by
  obtain ⟨s, ending, entered, tree, errors⟩ := parse_enter g entry tokens mode
  obtain ⟨s', ending', entered', tree', errors'⟩ := parse_enter g entry tokens' mode
  have texts : tokens.map Token.unplaced = tokens'.map Token.unplaced := unplaced_of_signs signs
  -- both parses go in lockstep with the one parse of the tokens without their places
  have entered_unplaced : ∀ tokens : List Token,
      Prod.map State.unplaced id
          (g.enter mode (.endOf tokens) maxDepth [] entry false [] { rest := tokens })
        = g.enter mode ⟨.endOfInput, "", {}, true⟩ maxDepth [] entry false []
            ⟨tokens.map Token.unplaced, #[], #[]⟩ := by
    intro tokens
    rw [← enter_unplaced, unplaced_endOf]
    simp [State.unplaced]
  have alike : (s.unplaced, ending) = (s'.unplaced, ending') := by
    calc (s.unplaced, ending)
      _ = Prod.map State.unplaced id (s, ending) := rfl
      _ = Prod.map State.unplaced id (s', ending') := by
        rw [← entered, ← entered', entered_unplaced, entered_unplaced, texts]
  obtain ⟨states, endings⟩ := Prod.mk.inj alike
  have rests : s.rest.map Token.unplaced = s'.rest.map Token.unplaced := congrArg State.rest states
  have recorded : s.errors.toList.map SyntaxError.unplaced
      = s'.errors.toList.map SyntaxError.unplaced := by
    rw [← Array.toList_map, ← Array.toList_map]
    exact congrArg (·.errors.toList) states
  unfold Grammar.Parse.unplaced
  rw [tree, tree', ← treeOf_unplaced, ← treeOf_unplaced, states]
  congr 1
  rcases errors with ⟨found, rest, complete, left, errors⟩ | ⟨finished, errors⟩
  · rcases errors' with ⟨found', rest', -, left', errors'⟩ | ⟨finished', -⟩
    · have text : found.text = found'.text := by
        rw [left, left'] at rests
        have same : found.unplaced = found'.unplaced := (List.cons.inj rests).1
        show found.unplaced.text = found'.unplaced.text
        rw [same]
      rw [errors, errors', List.map_append, List.map_append, recorded, text]
      rfl
    · rw [left, finished' (endings ▸ complete)] at rests
      exact absurd rests (List.cons_ne_nil _ _)
  · rcases errors' with ⟨found', rest', complete', left', -⟩ | ⟨-, errors'⟩
    · rw [left', finished (endings ▸ complete')] at rests
      exact absurd rests.symm (List.cons_ne_nil _ _)
    · rw [errors, errors', recorded]

end GraphQL
