/-
  Where a parse goes on when a rule is given up.

  A rule that is stuck is given up.  Tokens are left out up to the first that some active rule can
  go on with, and the innermost rule that this token may follow is the one after which tokens are
  read on.  That is how it looks from outside.  In a parse nobody looks from outside: each rule
  finds the place by itself when it is left, and if it is not the one, the rule that called it is
  stuck in turn and finds the place again, now with one active rule less.

  The crux is that the place stays the same.  A rule that is not the one is a rule that the token at
  the place may not follow; so without it the token is still one that some active rule can go on
  with, and those before it still are not (`Resumes.behind`).  At the end of the input every rule is
  the one.  Since nothing may follow the entry rule, a place for it alone is the end, and the entry
  rule is never given up without going on (`result_whole_ne_stuck`).

  Between two rules nothing stops the way out: rows, optional parts, repetitions and choices end as
  the part of them ended that could not be read (`Task.Awaits.result_eq`).
-/
import GraphQL.Proofs.Progress
import Mathlib.Data.List.TakeWhile

namespace GraphQL

/-! ## The calls that wait for a reading -/

namespace Task

/-- The frame of the rule that is called, if a call is to be read. -/
def frame? (t : Task) : Option Frame :=
  match t.plan with
  | .call rule _ follow => some ⟨rule, follow⟩
  | _ => none

/-- A reading that a parse comes to, with the calls that wait for it, innermost first.  From a
    reading to one that it waits for the levels get fewer just where a rule is entered. -/
inductive Reached (g : Grammar) (whole : Task) : List Task → Task → Prop where
  | whole : Reached g whole [] whole
  | part {calls t u} (reached : Reached g whole calls t) (awaits : Awaits g t u)
      (same : u.levels = t.levels) : Reached g whole calls u
  | body {calls t u} (reached : Reached g whole calls t) (awaits : Awaits g t u)
      (entered : u.levels < t.levels) : Reached g whole (t :: calls) u

variable {g : Grammar} {whole t u : Task} {calls : List Task}

/-- Within a rule the levels and the context stay; else the body of a called rule is read. -/
theorem Awaits.same_or_call (h : Awaits g t u) :
    (u.levels = t.levels ∧ u.context = t.context) ∨
      ∃ n c rule arg follow s, t = ⟨n + 1, c, .call rule arg follow, s⟩ ∧
        u = ⟨n, c.inside rule arg follow, g.plans.get rule, { s with parts := #[] }⟩ := by
  cases h with
  | call => exact .inr ⟨_, _, _, _, _, _, rfl, rfl⟩
  | goesOn h => cases h <;> exact .inl ⟨rfl, rfl⟩
  | first | others | inside | round | branch => exact .inl ⟨rfl, rfl⟩

theorem Awaits.context_eq (h : Awaits g t u) (same : u.levels = t.levels) :
    u.context = t.context := by
  rcases h.same_or_call with ⟨-, context⟩ | ⟨n, c, rule, arg, follow, s, rfl, rfl⟩
  · exact context
  · exact absurd same (Nat.ne_of_lt (Nat.lt_succ_self n))

/-- A level of nesting is entered by a call and by nothing else. -/
theorem Awaits.exists_call (h : Awaits g t u) (entered : u.levels < t.levels) :
    ∃ n c rule arg follow s, t = ⟨n + 1, c, .call rule arg follow, s⟩ ∧
      u = ⟨n, c.inside rule arg follow, g.plans.get rule, { s with parts := #[] }⟩ := by
  rcases h.same_or_call with ⟨same, -⟩ | call
  · exact absurd same (Nat.ne_of_lt entered)
  · exact call

/-- Every reading that a parse comes to has its calls. -/
theorem exists_reached (h : Relation.ReflTransGen (Awaits g) whole t) :
    ∃ calls, Reached g whole calls t := by
  induction h with
  | refl => exact ⟨[], .whole⟩
  | tail _ awaits ih =>
    obtain ⟨calls, reached⟩ := ih
    rcases awaits.same_or_call with ⟨same, -⟩ | ⟨n, c, rule, arg, follow, s, rfl, rfl⟩
    · exact ⟨calls, reached.part awaits same⟩
    · exact ⟨_ :: calls, reached.body awaits (Nat.lt_succ_self n)⟩

/-- The calls that wait for a reading are those of the active rules. -/
theorem Reached.frames_eq (h : Reached g whole calls t) (outermost : whole.context.frames = []) :
    calls.map frame? = t.context.frames.map some := by
  induction h with
  | whole => rw [outermost]; rfl
  | part _ awaits same ih => rw [awaits.context_eq same, ih]
  | body _ awaits entered ih =>
    obtain ⟨n, c, rule, arg, follow, s, rfl, rfl⟩ := awaits.exists_call entered
    exact congrArg (some ⟨rule, follow⟩ :: ·) ih

theorem Reached.suffix (h : Reached g whole calls t) : t.state.rest <:+ whole.state.rest := by
  induction h with
  | whole => exact List.suffix_rfl
  | part _ awaits _ ih => exact awaits.suffix.trans ih
  | body _ awaits _ ih => exact awaits.suffix.trans ih

/-- What cannot be read to its end is the end of whatever it is read for, up to the rule. -/
theorem Awaits.result_eq {s : State} {ending : Ending} (h : Awaits g t u)
    (same : u.levels = t.levels) (result : u.result g = (s, ending)) (cuts : ending ≠ .complete) :
    t.result g = (s, ending) := by
  have step : t.step g (Task.result g) = t.result g := step_eq_result fun _ _ => rfl
  rw [← step]
  -- what is awaited at the same level is the rest of the work, so how it is cut short is how the
  -- whole is
  cases h with
  | call => exact absurd same (Nat.ne_of_lt (Nat.lt_succ_self _))
  | first =>
    rw [Task.step, result]
    -- a first item that does not end well is the end of the row
    cases ending with
    | complete => exact absurd rfl cuts
    | stuck | aborted => rfl
  | @others n c p rest s₀ s' first =>
    have first : Task.result g ⟨n, c, p, s₀⟩ = (s', .complete) := first
    rw [Task.step, first]
    exact result
  | inside opens =>
    rw [Task.step, if_pos opens]
    exact result
  | round opens =>
    rw [Task.step, if_pos opens, result]
    -- so is a round that does not end well
    cases ending with
    | complete => exact absurd rfl cuts
    | stuck | aborted => rfl
  | branch chosen =>
    simp only [Task.step, chosen]
    exact result
  | goesOn h =>
    cases h with
    | @round n c nonempty ahead body after s₀ s' opens first moved =>
      have first : Task.result g ⟨n, c, body, s₀⟩ = (s', .complete) := first
      rw [Task.step, if_pos opens, first]
      exact (if_pos moved).trans result
    | resume closed recovery =>
      rw [Task.step, if_neg (ne_true_of_eq_false closed), if_neg Bool.false_ne_true, recovery]
      exact result

end Task

/-! ## The place -/

/-- The place where a parse goes on: that of the first token, not before `i`, that some active rule
    may be followed by, or the end of the input. -/
structure Resumes (tokens : List Token) (frames : List Frame) (i p : Nat) : Prop where
  le : i ≤ p
  within : p ≤ tokens.length
  usable : ∀ t, tokens[p]? = some t → ∃ f ∈ frames, t.meetsSome f.follow = true
  passed : ∀ j t, i ≤ j → j < p → tokens[j]? = some t →
    ∀ f ∈ frames, t.meetsSome f.follow = false

/-- A token meets the demands of some active rule exactly if it may follow one. -/
theorem meetsSome_follows {c : Context} {t : Token} :
    t.meetsSome c.follows = true ↔ ∃ f ∈ c.frames, t.meetsSome f.follow = true := by
  simp only [Token.meetsSome, Context.follows, List.any_eq_true, mem_distinct, List.mem_flatMap]
  constructor
  · rintro ⟨demand, ⟨f, hf, mem⟩, met⟩
    exact ⟨f, hf, demand, mem, met⟩
  · rintro ⟨f, hf, demand, mem, met⟩
    exact ⟨demand, ⟨f, hf, mem⟩, met⟩

namespace Resumes

variable {tokens : List Token} {frames : List Frame} {i p q : Nat}

/-- There is one such place at most: the first of two would have been passed. -/
theorem unique (h : Resumes tokens frames i p) (h' : Resumes tokens frames i q) : p = q := by
  have notBefore : ∀ {p q}, Resumes tokens frames i p → Resumes tokens frames i q → ¬ p < q := by
    intro p q h h' before
    have inside : p < tokens.length := Nat.lt_of_lt_of_le before h'.within
    have found := List.getElem?_eq_getElem inside
    obtain ⟨f, hf, meets⟩ := h.usable _ found
    rw [h'.passed p _ h.le before found f hf] at meets
    cases meets
  have := notBefore h h'
  have := notBefore h' h
  omega

/-- An active rule that the token at the place may not follow does not matter for the place. -/
theorem behind {f : Frame} (h : Resumes tokens (f :: frames) i p)
    (passes : ∀ t, tokens[p]? = some t → t.meetsSome f.follow = false) :
    Resumes tokens frames i p where
  le := h.le
  within := h.within
  usable t found := by
    obtain ⟨f', mem, meets⟩ := h.usable t found
    rcases List.mem_cons.mp mem with rfl | mem
    · rw [passes t found] at meets
      cases meets
    · exact ⟨f', mem, meets⟩
  passed j t from_i before found f' mem := h.passed j t from_i before found f' (.tail _ mem)

end Resumes

/-- The parse finds the place: it is where the tokens begin that are left at the point of
    resumption. -/
theorem exists_resumes {tokens : List Token} {i : Nat} {s : State} (c : Context)
    (stands : s.Stands tokens i) :
    ∃ p, Resumes tokens c.frames i p ∧ c.resyncPoint s.rest = tokens.drop p := by
  -- the tokens that no rule on the stack goes on with
  let useless : Token → Bool := fun t => !t.meetsSome c.follows
  have split : s.rest.takeWhile useless ++ c.resyncPoint s.rest = s.rest :=
    List.takeWhile_append_dropWhile ..
  have found : c.resyncPoint s.rest = tokens.drop (i + (s.rest.takeWhile useless).length) := by
    have behind : (s.rest.takeWhile useless ++ c.resyncPoint s.rest).drop
        (s.rest.takeWhile useless).length = c.resyncPoint s.rest := List.drop_left
    rw [split] at behind
    rw [← List.drop_drop, ← stands.rest_eq, behind]
  have lengths : (s.rest.takeWhile useless).length + (c.resyncPoint s.rest).length
      = tokens.length - i := by
    rw [← List.length_append, split, stands.rest_eq, List.length_drop]
  have within := stands.le
  refine ⟨_, ⟨Nat.le_add_right .., by omega, fun t here => ?_, ?_⟩, found⟩
  · -- at the place itself some rule goes on
    have first : (s.rest.dropWhile useless).head? = some t := by
      rw [← here, ← List.head?_drop]
      exact congrArg List.head? found
    have meets := List.head?_dropWhile_not useless s.rest
    rw [first] at meets
    exact meetsSome_follows.mp (by simpa [useless] using meets)
  · -- and before it none does
    intro j t from_i before here f hf
    have mem : t ∈ s.rest.takeWhile useless := by
      refine List.mem_of_getElem? (i := j - i) ?_
      have inRest : s.rest[j - i]? = some t := by
        rw [stands.rest_eq, List.getElem?_drop, ← here]
        congr 1
        omega
      rw [← split, List.getElem?_append_left (by omega)] at inRest
      exact inRest
    have passes : useless t = true := List.mem_takeWhile_imp mem
    by_contra meets
    have usable := meetsSome_follows.mpr ⟨f, hf, eq_true_of_ne_false meets⟩
    simp [useless, usable] at passes

/-- So it does wherever the place is known. -/
theorem Resumes.resyncPoint_eq {tokens : List Token} {i p : Nat} {s : State} {c : Context}
    (h : Resumes tokens c.frames i p) (stands : s.Stands tokens i) :
    c.resyncPoint s.rest = tokens.drop p := by
  obtain ⟨q, place, found⟩ := exists_resumes c stands
  rw [found, h.unique place]

/-! ## The way out -/

/-- A reading of the entry rule is never given up without going on: nothing may follow the entry
    rule, so it goes on at the end of the input. -/
theorem result_whole_ne_stuck (g : Grammar) (mode : Mode) (entry : Rule) (tokens : List Token)
    (s : State) : (Task.whole mode entry tokens).result g ≠ (s, .stuck) := by
  let c : Context := (Context.outermost mode tokens).inside entry (.fixed false) []
  have left : (Task.whole mode entry tokens).result g
      = c.leave entry { rest := tokens } (g.reading (maxDepth - 1) c (g.plans.get entry)
          { rest := tokens }) := rfl
  rw [left]
  rcases g.reading (maxDepth - 1) c (g.plans.get entry) { rest := tokens } with ⟨inner, ending⟩
  cases ending with
  | complete | aborted => exact fun same => nomatch (Prod.mk.inj same).2
  | stuck =>
    have point : c.resyncPoint inner.rest = [] :=
      List.dropWhile_eq_nil_iff.mpr fun _ _ => rfl
    intro same
    rw [Context.leave, point] at same
    cases (Prod.mk.inj same).2

/-- How a parse goes on from the body of a rule that stopped at a place.  Of the calls that wait for
    it some are given up, with everything as it was where the body stopped, and the next one
    outward, the owner, is read to its end and leaves the tokens from the new place on. -/
structure Resumption (g : Grammar) (tokens : List Token) (calls : List Task) (frames : List Frame)
    (stopped : State) (p : Nat) (deeper : List Task) (owner : Task) (outer : List Task) :
    Prop where
  split : calls = deeper ++ owner :: outer
  unwound : ∀ u ∈ deeper, ∃ s, u.result g = (s, .stuck) ∧ s.rest = stopped.rest ∧
    s.errors = stopped.errors
  returns : ∃ s, owner.result g = (s, .complete) ∧ s.rest = tokens.drop p ∧
    s.errors = stopped.errors
  /-- The owner is the innermost rule that the token at the new place may follow. -/
  owns : ∀ t, tokens[p]? = some t →
    (∀ u ∈ deeper, ∃ f, u.frame? = some f ∧ t.meetsSome f.follow = false) ∧
      ∃ f, owner.frame? = some f ∧ t.meetsSome f.follow = true
  /-- At the end of the input it is the innermost rule. -/
  atEnd : p = tokens.length → deeper = []
  /-- Each rule on the way finds the same place. -/
  stable : ∀ k ≤ deeper.length, ∀ c : Context, c.frames = frames.drop k →
    c.resyncPoint stopped.rest = tokens.drop p

section WayOut

variable {g : Grammar} {tokens : List Token} {i p : Nat} {stopped : State}

/-- The body of a rule that is the owner itself. -/
theorem Resumption.here {n : Nat} {c : Context} {rule : Rule} {arg : ConstArg}
    {follow : List TokenKind} {s : State} {outer : List Task} (stands : stopped.Stands tokens i)
    (place : Resumes tokens (c.inside rule arg follow).frames i p)
    (stuck : g.reading n (c.inside rule arg follow) (g.plans.get rule) { s with parts := #[] }
      = (stopped, .stuck))
    (resumes : (c.inside rule arg follow).resumesAt (tokens.drop p) = true) :
    Resumption g tokens (⟨n + 1, c, .call rule arg follow, s⟩ :: outer)
      (c.inside rule arg follow).frames stopped p []
      ⟨n + 1, c, .call rule arg follow, s⟩ outer := by
  have point := place.resyncPoint_eq stands
  have left : Task.result g ⟨n + 1, c, .call rule arg follow, s⟩
      = (c.inside rule arg follow).leave rule s (stopped, .stuck) :=
    congrArg ((c.inside rule arg follow).leave rule s) stuck
  refine ⟨rfl, fun _ => nofun, ?_, fun t found => ⟨fun _ => nofun, _, rfl, ?_⟩, fun _ => rfl, ?_⟩
  · -- the call resumes there
    rw [Context.leave, point, if_pos resumes] at left
    exact ⟨_, left, rest_close .., errors_close ..⟩
  · -- its own rule goes on with the token
    obtain ⟨inside, rfl⟩ := List.getElem?_eq_some_iff.mp found
    rw [List.drop_eq_getElem_cons inside] at resumes
    exact resumes
  · -- and every stack of the same rules comes to the same place
    intro k least c' frames
    obtain rfl := Nat.le_zero.mp least
    have same : Resumes tokens c'.frames i p := frames ▸ place
    exact same.resyncPoint_eq stands

/-- From the body of a rule that cannot be read on the parse goes on at the one place and after the
    one owner.  Induction on the way on which the parse has come to the body. -/
theorem exists_resumption {mode : Mode} {entry : Rule} {calls : List Task} {t : Task}
    (reached : Task.Reached g (.whole mode entry tokens) calls t)
    (stuck : t.result g = (stopped, .stuck)) (stands : stopped.Stands tokens i)
    (place : Resumes tokens t.context.frames i p) :
    ∃ deeper owner outer,
      Resumption g tokens calls t.context.frames stopped p deeper owner outer := by
  induction reached generalizing stopped with
  | whole => exact absurd stuck (result_whole_ne_stuck g mode entry tokens stopped)
  | part _ awaits same ih =>
    rw [awaits.context_eq same] at place ⊢
    exact ih (awaits.result_eq same stuck nofun) stands place
  | body reached awaits entered ih =>
    obtain ⟨n, c, rule, arg, follow, s, rfl, rfl⟩ := awaits.exists_call entered
    by_cases resumes : (c.inside rule arg follow).resumesAt (tokens.drop p) = true
    · exact ⟨_, _, _, .here stands place stuck resumes⟩
    · -- the rule is not the owner, so its caller is stuck where the body stopped
      have left : Task.result g ⟨n + 1, c, .call rule arg follow, s⟩
          = ((c.inside rule arg follow).close rule true s stopped, .stuck) := by
        refine (congrArg ((c.inside rule arg follow).leave rule s) stuck).trans ?_
        rw [Context.leave, place.resyncPoint_eq stands, if_neg resumes]
      have passes : ∀ t, tokens[p]? = some t → t.meetsSome follow = false := by
        intro t found
        obtain ⟨inside, rfl⟩ := List.getElem?_eq_some_iff.mp found
        rw [List.drop_eq_getElem_cons inside] at resumes
        exact eq_false_of_ne_true resumes
      have outside : ((c.inside rule arg follow).close rule true s stopped).Stands tokens i :=
        ⟨stands.le, (rest_close ..).trans stands.rest_eq⟩
      obtain ⟨deeper, owner, outer, h⟩ := ih left outside (place.behind passes)
      have rest : ((c.inside rule arg follow).close rule true s stopped).rest = stopped.rest :=
        rest_close ..
      have errors : ((c.inside rule arg follow).close rule true s stopped).errors
          = stopped.errors := errors_close ..
      have inside : p ≠ tokens.length := by
        rintro rfl
        rw [List.drop_length] at resumes
        exact resumes rfl
      refine ⟨_ :: deeper, owner, outer, congrArg (_ :: ·) h.split, ?_, ?_, ?_, ?_, ?_⟩
      · rw [List.forall_mem_cons]
        refine ⟨⟨_, left, rest, errors⟩, ?_⟩
        rw [← rest, ← errors]
        exact h.unwound
      · rw [← errors]
        exact h.returns
      · intro t found
        obtain ⟨passed, owns⟩ := h.owns t found
        exact ⟨List.forall_mem_cons.mpr ⟨⟨_, rfl, passes t found⟩, passed⟩, owns⟩
      · exact fun atEnd => absurd atEnd inside
      · intro k least c' frames
        cases k with
        | zero =>
          have same : Resumes tokens c'.frames i p := frames ▸ place
          exact same.resyncPoint_eq stands
        | succ k =>
          rw [← rest]
          exact h.stable k (Nat.le_of_succ_le_succ least) c' frames

end WayOut

/-! ## Whole parses -/

/-- Wherever the body of a rule cannot be read on, the parse goes on at one place and after one
    rule.

    First, every reading that a parse comes to has the calls that wait for it.  Second, where the
    body of a called rule stops at `i`, these are the calls of the active rules; there is just one
    place `p` at which the parse goes on; and there it goes on after just one of the rules
    (`Resumption`).  Last, the entry rule does not end without going on. -/
theorem stuck_rule_resumes (g : Grammar) (entry : Rule) (tokens : List Token) (mode : Mode) :
    (∀ t, Relation.ReflTransGen (Task.Awaits g) (.whole mode entry tokens) t →
      ∃ calls, Task.Reached g (.whole mode entry tokens) calls t) ∧
    (∀ calls call body stopped, Task.Reached g (.whole mode entry tokens) calls call →
      Task.Awaits g call body → body.levels < call.levels →
      body.result g = (stopped, .stuck) →
      (call :: calls).map Task.frame? = body.context.frames.map some ∧
      ∃ i p, stopped.Stands tokens i ∧ Resumes tokens body.context.frames i p ∧
        (∀ q, Resumes tokens body.context.frames i q → q = p) ∧
        ∃ deeper owner outer, Resumption g tokens (call :: calls) body.context.frames stopped p
          deeper owner outer) ∧
    ∀ s, (Task.whole mode entry tokens).result g ≠ (s, .stuck) := by
  refine ⟨fun _ => Task.exists_reached, ?_, result_whole_ne_stuck g mode entry tokens⟩
  intro calls call body stopped reached awaits entered stuck
  have inside : Task.Reached g (.whole mode entry tokens) (call :: calls) body :=
    reached.body awaits entered
  have start : (Task.whole mode entry tokens).state.Stands tokens 0 := ⟨Nat.zero_le _, rfl⟩
  obtain ⟨_, -, stands, -⟩ := start.of_suffix inside.suffix
  have further : stopped.rest <:+ body.state.rest := by
    have further := suffix_of_result g body
    rwa [stuck] at further
  obtain ⟨i, -, stands, -⟩ := stands.of_suffix further
  obtain ⟨p, place, -⟩ := exists_resumes body.context stands
  exact ⟨inside.frames_eq rfl, i, p, stands, place, fun _ other => other.unique place,
    exists_resumption inside stuck stands place⟩

/-- A list with a variable in it that has no name. -/
def namelessTokens : List Token := (Scan.ofSource "[ $ : ]").tokens

/-- The context in which the list is read. -/
def namelessContext : Context :=
  (Context.outermost .tree namelessTokens).inside .listValue (.fixed false) []

set_option maxRecDepth 100000 in
/-- A variable without a name stops at the colon.  It is given up there, and the parse goes on at
    the bracket, after the value that the variable was read for. -/
theorem stuck_rule_resumes_nameless :
    ∃ calls call body stopped,
      Task.Reached Standard.grammar (.whole .tree .listValue namelessTokens) calls call ∧
      Task.Awaits Standard.grammar call body ∧ body.levels < call.levels ∧
      body.result Standard.grammar = (stopped, .stuck) ∧ stopped.Stands namelessTokens 2 ∧
      Resumes namelessTokens body.context.frames 2 3 ∧
      ∃ deeper owner outer, deeper ≠ [] ∧ Resumption Standard.grammar namelessTokens
        (call :: calls) body.context.frames stopped 3 deeper owner outer := by
  have shape : (match Standard.grammar.plans.get .listValue, Standard.grammar.plans.get .value with
      | .sequence items, .choice branches =>
        match items.head?, items.tail.head? with
        | some bracket, some (.repetition _ ahead (.call item arg follow) _) =>
          let read :=
            Standard.grammar.reading 255 namelessContext bracket { rest := namelessTokens }
          let inside := namelessContext.inside .value arg follow
          match branches.find? (Task.due inside { read.1 with parts := #[] }) with
          | some (_, _, .call name arg' follow') =>
            let body : Task := ⟨253, inside.inside .variable arg' follow',
              Standard.grammar.plans.get .variable, { read.1 with parts := #[] }⟩
            let stopped := body.result Standard.grammar
            decide (item = .value ∧ name = .variable ∧ read.2 = .complete ∧
              namelessContext.sees ahead read.1.rest = true ∧ follow' = [] ∧ stopped.2 = .stuck ∧
              stopped.1.rest.length = 2 ∧
              (body.context.resyncPoint stopped.1.rest).length = 1)
          | _ => false
        | _, _ => false
      | _, _ => false) = true := by
    decide +kernel
  split at shape
  · rename_i items branches listValue value
    split at shape
    · rename_i bracket nonempty ahead item arg follow after opening round
      extract_lets read inside at shape
      split at shape
      · rename_i gate ahead' name arg' follow' chosen
        extract_lets body stopped at shape
        obtain ⟨rfl, rfl, first, opens, noFollow, stuck, two, one⟩ := of_decide_eq_true shape
        obtain ⟨others, rfl⟩ : ∃ others, items
            = bracket :: .repetition nonempty ahead (.call .value arg follow) after :: others := by
          match items, opening, round with
          | _ :: _ :: others, rfl, rfl => exact ⟨others, rfl⟩
        have list : Task.Reached Standard.grammar (.whole .tree .listValue namelessTokens) _
            ⟨255, namelessContext, Standard.grammar.plans.get .listValue,
              { rest := namelessTokens }⟩ :=
          .body .whole .call (Nat.lt_succ_self 255)
        rw [listValue] at list
        have item : Task.Reached Standard.grammar (.whole .tree .listValue namelessTokens) _
            ⟨254, inside, Standard.grammar.plans.get .value, { read.1 with parts := #[] }⟩ :=
          (((list.part (.others (Prod.ext rfl first)) rfl).part .first rfl).part (.round opens)
            rfl).body .call (Nat.lt_succ_self 254)
        rw [value] at item
        have name : Task.Reached Standard.grammar (.whole .tree .listValue namelessTokens) _
            ⟨254, inside, .call .variable arg' follow', { read.1 with parts := #[] }⟩ :=
          item.part (.branch chosen) rfl
        have ended : stopped = (stopped.1, .stuck) := by rw [← stuck, Prod.mk.eta]
        obtain ⟨-, bodies, -⟩ := stuck_rule_resumes Standard.grammar .listValue namelessTokens .tree
        obtain ⟨-, i, p, stands, place, -, deeper, owner, outer, h⟩ :=
          bodies _ _ body stopped.1 name .call (Nat.lt_succ_self 253) ended
        have four : namelessTokens.length = 4 := by decide +kernel
        have point := place.resyncPoint_eq stands
        rw [stands.rest_eq, List.length_drop] at two
        rw [point, List.length_drop] at one
        obtain rfl : i = 2 := by omega
        obtain rfl : p = 3 := by omega
        refine ⟨_, _, body, stopped.1, name, .call, Nat.lt_succ_self 253, ended, stands, place,
          deeper, owner, outer, ?_, h⟩
        -- a variable ends its value, so no token is one that it may be followed by
        rintro rfl
        obtain ⟨rfl, -⟩ := List.cons.inj h.split
        obtain ⟨-, f, called, meets⟩ := h.owns _ (List.getElem?_eq_getElem (by omega))
        cases called
        rw [noFollow] at meets
        cases meets
      · cases shape
    · cases shape
  · cases shape

end GraphQL
