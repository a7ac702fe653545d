/-
  Places along a derivation.

  Completeness is an induction on derivations, and what it carries along is `Along`: a part of a rule
  that is about to be read, how the rule goes on behind it up to its end, which labels it has used so
  far, and that the token after the rule is one that the follow table has.

  One lemma for each way of going on says that `Along` is kept: from a row to its first part and to
  the others, from a repetition to a round of it, from a choice to a branch, from a call to the body
  of the callee.  Beside them stand the choices: what is derived is seen, and what is not is not,
  by `sees_of_derives` and `not_sees_of_derives`.
-/
import GraphQL.Proofs.Prediction

namespace GraphQL

/-! ## States further on -/

/-- The state after some tokens have been read and parts filed, without a mistake. -/
def State.advance (s : State) (rest : List Token) (parts : List Part) : State :=
  { s with rest, parts := s.parts ++ parts.toArray }

theorem advance_nil (s : State) : s.advance s.rest [] = s := by simp [State.advance]

theorem advance_advance (s : State) (mid rest : List Token) (parts more : List Part) :
    (s.advance mid parts).advance rest more = s.advance rest (parts ++ more) := by
  simp [State.advance]

theorem toList_parts_advance (s : State) (rest : List Token) (parts : List Part) :
    (s.advance rest parts).parts.toList = s.parts.toList ++ parts := by
  simp [State.advance]

/-! ## What a derivation uses and leaves -/

/-- A derivation uses only labels of its production. -/
theorem Derives.labels_subset {g : Productions}
    {allowed : Rule → List Part → List Token → Prop} {n : Nat} {constant : Bool} {p : Production}
    {tokens rest : List Token} {parts : List Part}
    (h : Derives g allowed n constant p tokens parts rest) : parts.map (·.1) ⊆ p.labels := by
  -- by induction on the derivation: what a part files is labelled in that part
  induction h with
  | token => exact List.Subset.refl _
  | call => exact List.Subset.refl _
  | nil => exact List.nil_subset _
  | skip => exact List.nil_subset _
  | done => exact List.nil_subset _
  | enter _ ih => exact ih
  | branch chosen _ _ ih => exact List.Subset.trans ih (Production.labels_branch chosen)
  | cons _ _ ih₁ ih₂ =>
    rw [List.map_append]
    exact List.append_subset.mpr ⟨List.Subset.trans ih₁ Production.labels_head,
      List.Subset.trans ih₂ Production.labels_tail⟩
  | again _ _ ih₁ ih₂ =>
    rw [List.map_append]
    exact List.append_subset.mpr ⟨ih₁, ih₂⟩
  | once _ _ ih₁ ih₂ =>
    rw [List.map_append]
    exact List.append_subset.mpr ⟨ih₁, ih₂⟩

/-- The labels that a repetition may have used in its earlier rounds. -/
def Production.looped : Production → List Label
  | .many body => body.labels
  | _ => []

/-! ## Along a derivation -/

/-- A grammar whose lookahead decides rightly wherever its rules are allowed. -/
structure Predictive (g : Grammar) (f : FollowTable)
    (allowed : Rule → List Part → List Token → Prop) (nullable : Rule → Bool)
    (rank : Rule → Nat) : Prop where
  made : ∀ r, g.productions.plan r [] (g.productions.get r) = .ok (g.plans.get r)
  ranked : g.productions.Ranked nullable rank
  settled : ∀ r, g.productions.settled f r [] [] (g.productions.get r) = true
  sound : f.Sound allowed

/-- What does not change while the body of a rule is read along a derivation: the end of the tokens
    that the rule takes, and the labels that it uses. -/
structure Inside (f : FollowTable) (c : Context) (rule : Rule) (used : List Label)
    (after : List Token) : Prop where
  tree : c.mode = .tree
  called : c.frames ≠ []
  atEnd : c.endToken.kind = .endOfInput
  outermost : c.frames.length = 1 → after = []
  follows : ∃ kind ∈ f.given rule used, (c.next after).meets kind = true

/-- What is known where a part of a rule is about to be read along a derivation: its plan, what the
    rule goes on with and how that is derived, and the labels used before. -/
structure Along (g : Grammar) (f : FollowTable) (allowed : Rule → List Part → List Token → Prop)
    (nullable : Rule → Bool) (n : Nat) (c : Context) (rule : Rule) (filed : List Label)
    (next : List Production) (p : Production) (plan : Plan) (s : State) (parts : List Part)
    (rest : List Token) (others : List Part) (after : List Token) : Prop where
  made : g.productions.plan rule next p = .ok plan
  settled : g.productions.settled f rule filed next p = true
  sound : Production.repeatsNullableInAll nullable (p :: next) = false
  filed : s.parts.toList.map (·.1) ⊆ filed ++ p.looped
  goesOn : Derives g.productions allowed n c.constant (.sequence next) rest others after
  inside : Inside f c rule ((s.parts.toList ++ parts ++ others).map (·.1)) after

section Places

variable {g : Grammar} {f : FollowTable} {allowed : Rule → List Part → List Token → Prop}
  {nullable : Rule → Bool} {rank : Rule → Nat} {n : Nat} {c : Context} {rule : Rule}
  {filed : List Label} {next : List Production} {plan : Plan} {s : State}
  {parts more others : List Part} {mid rest after : List Token} {p : Production}

namespace Along

/-- The token after the rule is one that may follow it, given the labels used so far and those that
    the rule may go on with. -/
theorem follows (h : Along g f allowed nullable n c rule filed next p plan s parts rest others after)
    (sound : f.Sound allowed) {most : List Label} (before : s.parts.toList.map (·.1) ⊆ most)
    (now : parts.map (·.1) ⊆ most) :
    ∃ kind ∈ f.given rule (most ++ (Production.sequence next).labels),
      (c.next after).meets kind = true := by
  obtain ⟨kind, hkind, met⟩ := h.inside.follows
  have few : (s.parts.toList ++ parts ++ others).map (·.1)
      ⊆ most ++ (Production.sequence next).labels := by
    rw [List.map_append, List.map_append]
    have soFar := List.append_subset.mpr ⟨before, now⟩
    have still := h.goesOn.labels_subset
    exact List.append_subset.mpr ⟨List.Subset.trans soFar (List.subset_append_left ..),
      List.Subset.trans still (List.subset_append_right ..)⟩
  exact ⟨kind, sound.mono rule few hkind, met⟩

/-- Outside of repetitions no label of the part itself has been used. -/
theorem noLoop (h : Along g f allowed nullable n c rule filed next p plan s parts rest others after)
    (once : p.looped = []) : s.parts.toList.map (·.1) ⊆ filed := by
  have filed := h.filed
  rwa [once, List.append_nil] at filed

/-- What the rule goes on with repeats nothing that can match nothing. -/
theorem sound_next
    (h : Along g f allowed nullable n c rule filed next p plan s parts rest others after) :
    Production.repeatsNullableInAll nullable next = false :=
  (Bool.or_eq_false_iff.mp h.sound).2

/-- Of parts that are read one after the other, the first come before the others. -/
theorem inside_first
    (h : Along g f allowed nullable n c rule filed next p plan s (parts ++ more) rest others after) :
    Inside f c rule ((s.parts.toList ++ parts ++ (more ++ others)).map (·.1)) after := by
  have inside := h.inside
  rwa [← List.append_assoc s.parts.toList, List.append_assoc _ more] at inside

/-- The others come after the first, which have been filed. -/
theorem inside_others
    (h : Along g f allowed nullable n c rule filed next p plan s (parts ++ more) rest others after) :
    Inside f c rule (((s.advance mid parts).parts.toList ++ more ++ others).map (·.1)) after := by
  have inside := h.inside
  rwa [← List.append_assoc s.parts.toList, ← toList_parts_advance s mid] at inside

/-! ### Rows -/

variable {items : List Production}

/-- The first part of a row goes on with the others. -/
theorem head {first : Plan} {rests : List Plan}
    (h : Along g f allowed nullable n c rule filed next (.sequence (p :: items))
      (.sequence (first :: rests)) s (parts ++ more) rest others after)
    (made : g.productions.plan rule (items ++ next) p = .ok first)
    (derives : Derives g.productions allowed n c.constant (.sequence items) mid more rest) :
    Along g f allowed nullable n c rule filed (items ++ next) p first s parts mid
      (more ++ others) after where
  made := made
  settled := (Bool.and_eq_true_iff.mp h.settled).1
  sound := by
    obtain ⟨soundRow, soundNext⟩ := Bool.or_eq_false_iff.mp h.sound
    obtain ⟨soundFirst, soundItems⟩ := Bool.or_eq_false_iff.mp soundRow
    exact Bool.or_eq_false_iff.mpr
      ⟨soundFirst, Production.repeatsNullableInAll_append.mpr ⟨soundItems, soundNext⟩⟩
  filed := List.Subset.trans (h.noLoop rfl) (List.subset_append_left ..)
  goesOn := derives.append h.goesOn
  inside := h.inside_first

/-- The other parts of a row come after its first. -/
theorem tail {first : Plan} {rests : List Plan}
    (h : Along g f allowed nullable n c rule filed next (.sequence (p :: items))
      (.sequence (first :: rests)) s (parts ++ more) rest others after)
    (made : g.productions.planRow rule next items = .ok rests)
    (derives : Derives g.productions allowed n c.constant p s.rest parts mid) :
    Along g f allowed nullable n c rule (filed ++ p.labels) next (.sequence items)
      (.sequence rests) (s.advance mid parts) more rest others after where
  made := bind_eq_ok_iff.mpr ⟨rests, made, rfl⟩
  settled := (Bool.and_eq_true_iff.mp h.settled).2
  sound := by
    obtain ⟨soundRow, soundNext⟩ := Bool.or_eq_false_iff.mp h.sound
    obtain ⟨-, soundItems⟩ := Bool.or_eq_false_iff.mp soundRow
    exact Bool.or_eq_false_iff.mpr ⟨soundItems, soundNext⟩
  filed := by
    rw [toList_parts_advance, List.map_append]
    have before := List.Subset.trans (h.noLoop rfl) (List.subset_append_left filed p.labels)
    have now := List.Subset.trans derives.labels_subset (List.subset_append_right filed p.labels)
    exact List.Subset.trans (List.append_subset.mpr ⟨before, now⟩)
      (List.subset_append_left ..)
  goesOn := h.goesOn
  inside := h.inside_others

/-! ### Optional parts -/

variable {body : Production} {ahead : Lookahead} {inner : Plan}

/-- Going on within an optional part: what follows it is what followed the whole. -/
theorem body_of_optional
    (h : Along g f allowed nullable n c rule filed next (.optional body) (.optional ahead inner) s
      parts rest others after)
    (made : g.productions.plan rule next body = .ok inner) :
    Along g f allowed nullable n c rule filed next body inner s parts rest others after where
  made := made
  settled := (Bool.and_eq_true_iff.mp h.settled).2
  sound := h.sound
  filed := List.Subset.trans (h.noLoop rfl) (List.subset_append_left ..)
  goesOn := h.goesOn
  inside := h.inside

/-- An optional part that is there is seen. -/
theorem sees_optional (predictive : Predictive g f allowed nullable rank)
    (h : Along g f allowed nullable n c rule filed next (.optional body) (.optional ahead inner) s
      parts rest others after)
    (resolved : g.productions.resolveOptional rule (body :: next) next = .ok ahead)
    (derives : Derives g.productions allowed n c.constant body s.rest parts rest) :
    c.sees ahead s.rest = true := by
  have sound : Production.repeatsNullableInAll nullable (body :: next) = false := h.sound
  have paths := (Productions.resolveOptional_eq_ok resolved).2
  exact sees_of_derives predictive.ranked sound paths (.cons derives h.goesOn)

/-- An optional part that is not there is not seen. -/
theorem not_sees_optional (predictive : Predictive g f allowed nullable rank)
    (h : Along g f allowed nullable n c rule filed next (.optional body) (.optional ahead inner) s
      [] s.rest others after)
    (resolved : g.productions.resolveOptional rule (body :: next) next = .ok ahead) :
    c.sees ahead s.rest = false := by
  obtain ⟨decides, -⟩ := Bool.and_eq_true_iff.mp h.settled
  obtain ⟨paths, apart⟩ := Productions.separates_of_decides decides resolved
  have follows := h.follows predictive.sound (h.noLoop rfl) (List.nil_subset _)
  exact not_sees_of_derives predictive.ranked h.sound_next paths apart h.goesOn follows

/-! ### Repetitions -/

variable {behind : AfterRepetition}

/-- A repetition that must not be empty is one that may be, behind its first round. -/
theorem many_of_atLeastOne
    (h : Along g f allowed nullable n c rule filed next (.atLeastOne body)
      (.repetition true ahead inner behind) s parts rest others after) :
    Along g f allowed nullable n c rule filed next (.many body)
      (.repetition false ahead inner behind) s parts rest others after where
  made := by
    obtain ⟨_, _, resolved, made, heq⟩ := Productions.plan_atLeastOne h.made
    cases heq
    exact bind_eq_ok_iff.mpr ⟨_, resolved, bind_eq_ok_iff.mpr ⟨_, made, rfl⟩⟩
  settled := h.settled
  sound := h.sound
  filed := List.Subset.trans (h.noLoop rfl) (List.subset_append_left ..)
  goesOn := h.goesOn
  inside := h.inside

/-- The body of a repetition takes a token, and going round repeats nothing else. -/
theorem sound_round
    (h : Along g f allowed nullable n c rule filed next (.many body) plan s parts rest others after) :
    body.nullable nullable = false ∧
      Production.repeatsNullableInAll nullable (body :: .many body :: next) = false := by
  obtain ⟨soundMany, -⟩ := Bool.or_eq_false_iff.mp h.sound
  obtain ⟨taking, soundBody⟩ := Bool.or_eq_false_iff.mp soundMany
  exact ⟨taking, Bool.or_eq_false_iff.mpr ⟨soundBody, h.sound⟩⟩

/-- A round goes on with more rounds. -/
theorem round
    (h : Along g f allowed nullable n c rule filed next (.many body)
      (.repetition false ahead inner behind) s (parts ++ more) rest others after)
    (made : g.productions.plan rule (.many body :: next) body = .ok inner)
    (derives : Derives g.productions allowed n c.constant (.many body) mid more rest) :
    Along g f allowed nullable n c rule (filed ++ body.labels) (.many body :: next) body inner s
      parts mid (more ++ others) after where
  made := made
  settled := (Bool.and_eq_true_iff.mp h.settled).2
  sound := h.sound_round.2
  filed := List.Subset.trans h.filed (List.subset_append_left ..)
  goesOn := .cons derives h.goesOn
  inside := h.inside_first

/-- Behind a round the repetition goes on. -/
theorem nextRound
    (h : Along g f allowed nullable n c rule filed next (.many body)
      (.repetition false ahead inner behind) s (parts ++ more) rest others after)
    (derives : Derives g.productions allowed n c.constant body s.rest parts mid) :
    Along g f allowed nullable n c rule filed next (.many body)
      (.repetition false ahead inner behind) (s.advance mid parts) more rest others after where
  made := h.made
  settled := h.settled
  sound := h.sound
  filed := by
    rw [toList_parts_advance, List.map_append]
    exact List.append_subset.mpr
      ⟨h.filed, List.Subset.trans derives.labels_subset (List.subset_append_right ..)⟩
  goesOn := h.goesOn
  inside := h.inside_others

/-- A round that is there is seen. -/
theorem sees_round (predictive : Predictive g f allowed nullable rank)
    (h : Along g f allowed nullable n c rule filed next (.many body)
      (.repetition false ahead inner behind) s (parts ++ more) rest others after)
    (resolved : g.productions.resolveOptional rule (body :: .many body :: next) next = .ok ahead)
    (derives : Derives g.productions allowed n c.constant body s.rest parts mid)
    (derivesMore : Derives g.productions allowed n c.constant (.many body) mid more rest) :
    c.sees ahead s.rest = true := by
  have paths := (Productions.resolveOptional_eq_ok resolved).2
  exact sees_of_derives predictive.ranked h.sound_round.2 paths
    (.cons derives (.cons derivesMore h.goesOn))

/-- A round takes a token. -/
theorem length_lt (predictive : Predictive g f allowed nullable rank)
    (h : Along g f allowed nullable n c rule filed next (.many body)
      (.repetition false ahead inner behind) s (parts ++ more) rest others after)
    (derives : Derives g.productions allowed n c.constant body s.rest parts mid) :
    mid.length < s.rest.length :=
  length_lt_of_derives predictive.ranked h.sound_round.1 derives

/-- Where a repetition ends, no further round is seen. -/
theorem not_sees_round (predictive : Predictive g f allowed nullable rank)
    (h : Along g f allowed nullable n c rule filed next (.many body)
      (.repetition false ahead inner behind) s [] s.rest others after)
    (resolved : g.productions.resolveOptional rule (body :: .many body :: next) next = .ok ahead) :
    c.sees ahead s.rest = false := by
  obtain ⟨decides, -⟩ := Bool.and_eq_true_iff.mp h.settled
  obtain ⟨paths, apart⟩ := Productions.separates_of_decides decides resolved
  have follows := h.follows predictive.sound h.filed (List.nil_subset _)
  exact not_sees_of_derives predictive.ranked h.sound_next paths apart h.goesOn follows

/-- Where a repetition ends, the token that it awaits is there. -/
theorem recover_eq_leave
    (h : Along g f allowed nullable n c rule filed next p plan s [] s.rest others after) :
    c.recover ahead (g.productions.afterRepetition next) s = .leave s := by
  have awaited : ∀ expected follow,
      c.awaited (g.productions.afterRepetition next) = some (expected, follow) →
      (c.next s.rest).meets expected = true := by
    intro expected follow hawaited
    have goesOn := h.goesOn
    unfold Productions.afterRepetition at hawaited
    split at hawaited
    · -- the rule ends, and something is awaited in the outermost rule only
      simp only [Context.awaited] at hawaited
      split at hawaited
      · rename_i outermost
        cases hawaited
        cases goesOn
        rw [h.inside.outermost outermost]
        show c.endToken.kind.satisfies .endOfInput = true
        rw [h.inside.atEnd]
        rfl
      · cases hawaited
    · cases hawaited
      cases goesOn with
      | cons first others =>
        generalize s.rest = tokens at first
        cases first with
        | token met => exact met
    · cases hawaited
  unfold Context.recover
  split
  · rfl
  · rename_i expected follow hawaited
    simp only [awaited expected follow hawaited, Bool.true_or, if_true]

/-! ### Choices -/

variable {alternatives : List (Gate × Production)} {branches : List (Gate × Lookahead × Plan)}
  {gate : Gate}

/-- A branch and what its choice goes on with repeat nothing that can match nothing. -/
theorem sound_branch
    (h : Along g f allowed nullable n c rule filed next (.choice alternatives) plan s parts rest
      others after)
    (chosen : (gate, p) ∈ alternatives) :
    Production.repeatsNullableInAll nullable (p :: next) = false := by
  obtain ⟨soundChoice, soundNext⟩ := Bool.or_eq_false_iff.mp h.sound
  have soundBranch := Production.repeatsNullable_of_mem chosen soundChoice
  exact Bool.or_eq_false_iff.mpr ⟨soundBranch, soundNext⟩

/-- A branch goes on as its choice does. -/
theorem branch
    (h : Along g f allowed nullable n c rule filed next (.choice alternatives) (.choice branches) s
      parts rest others after)
    (chosen : (gate, p) ∈ alternatives) (made : g.productions.plan rule next p = .ok inner) :
    Along g f allowed nullable n c rule filed next p inner s parts rest others after where
  made := made
  settled := Productions.settled_of_mem chosen (Bool.and_eq_true_iff.mp h.settled).2
  sound := h.sound_branch chosen
  filed := List.Subset.trans (h.noLoop rfl) (List.subset_append_left ..)
  goesOn := h.goesOn
  inside := h.inside

/-- Of the branches of a choice the one that is derived is read: the earlier ones are not seen.
    Induction on the alternatives. -/
theorem exists_readBranch (predictive : Predictive g f allowed nullable rank)
    {enter : Rule → Bool → List TokenKind → State → State × Ending} {follow : List TokenKind}
    {depth : Nat}
    (made : g.productions.planBranches rule next
      (alternatives.map fun (_, p) => ⟨depth, g.productions.openings depth (p :: next)⟩)
      alternatives = .ok branches)
    (apart : separatesAll follow
      (alternatives.map fun (_, p) => g.productions.openings depth (p :: next)) = true)
    (sound : ∀ alternative ∈ alternatives,
      Production.repeatsNullableInAll nullable (alternative.2 :: next) = false)
    (chosen : (gate, p) ∈ alternatives) (opens : gate.allows c.constant = true)
    (derives : Derives g.productions allowed n c.constant (.sequence (p :: next)) s.rest more after)
    (follows : ∃ kind ∈ follow, (c.next after).meets kind = true) :
    ∃ inner, g.productions.plan rule next p = .ok inner ∧
      Plan.readBranch c enter branches s = some (inner.read c enter s) := by
  induction alternatives generalizing branches with
  | nil => cases chosen
  | cons alternative alternatives ih =>
    obtain ⟨first, others, hfirst, hothers, rfl⟩ := Productions.planBranches_cons made
    obtain ⟨apartFirst, apartOthers⟩ := Bool.and_eq_true_iff.mp apart
    rw [Plan.readBranch]
    rcases List.mem_cons.mp chosen with rfl | chosen
    · refine ⟨first, hfirst, if_pos (Bool.and_eq_true_iff.mpr ⟨opens, ?_⟩)⟩
      exact sees_of_derives predictive.ranked (sound _ List.mem_cons_self) rfl derives
    · -- the first branch fails on all that the chosen one can begin with
      have other := List.all_eq_true.mp apartFirst _ (List.mem_map_of_mem chosen)
      have unseen : c.sees ⟨depth, g.productions.openings depth (alternative.2 :: next)⟩ s.rest
          = false :=
        not_sees_of_derives predictive.ranked (sound _ (List.mem_cons_of_mem _ chosen)) rfl other
          derives follows
      obtain ⟨inner, hinner, hread⟩ := ih hothers apartOthers
        (fun a ha => sound a (List.mem_cons_of_mem _ ha)) chosen
      refine ⟨inner, hinner, ?_⟩
      rw [if_neg (by rw [unseen, Bool.and_false]; exact Bool.false_ne_true), hread]

/-- The choice made is the one that is derived. -/
theorem exists_branch (predictive : Predictive g f allowed nullable rank)
    (h : Along g f allowed nullable n c rule filed next (.choice alternatives) (.choice branches) s
      parts rest others after)
    (chosen : (gate, p) ∈ alternatives) (opens : gate.allows c.constant = true)
    (derives : Derives g.productions allowed n c.constant p s.rest parts rest)
    (enter : Rule → Bool → List TokenKind → State → State × Ending) :
    ∃ inner, g.productions.plan rule next p = .ok inner ∧
      (Plan.choice branches).read c enter s = inner.read c enter s := by
  -- the plan of the choice has decided between its branches, each with what follows
  obtain ⟨aheads, _, resolved, made, heq⟩ := Productions.plan_choice h.made
  cases heq
  obtain ⟨decides, -⟩ := Bool.and_eq_true_iff.mp h.settled
  obtain ⟨depth, rfl, apart⟩ := Productions.separatesAll_of_decides decides resolved
  rw [List.map_map] at made apart
  have sound : ∀ alternative ∈ alternatives,
      Production.repeatsNullableInAll nullable (alternative.2 :: next) = false := by
    intro alternative hmem
    exact h.sound_branch hmem
  -- what has been filed, and what will be, has labels of the rule
  have before := List.Subset.trans (h.noLoop rfl)
    (List.subset_append_left filed (Production.choice alternatives).labels)
  have now := List.Subset.trans derives.labels_subset
    (List.Subset.trans (Production.labels_branch chosen) (List.subset_append_right filed _))
  have follows := h.follows predictive.sound before now
  obtain ⟨inner, hinner, hread⟩ := exists_readBranch predictive made apart sound chosen opens
    (.cons derives h.goesOn) follows
  refine ⟨inner, hinner, ?_⟩
  rw [Plan.read, hread]

/-! ### Calls -/

variable {callee : Rule} {arg : ConstArg} {follow : List TokenKind}

/-- Before what comes after a call, the callee may end. -/
theorem follows_call (predictive : Predictive g f allowed nullable rank)
    (h : Along g f allowed nullable n c rule filed next (.call callee arg) plan s parts rest others
      after)
    {inner : List Part} (fits : allowed callee inner rest) :
    ∃ kind ∈ f.given callee (inner.map (·.1)), (c.next rest).meets kind = true := by
  have anyOf : ∃ kind ∈ f.all callee, (c.next rest).meets kind = true := by
    obtain ⟨taken, kinds, rfl, meets, emits⟩ := h.goesOn.exists_emits
    have opening := predictive.ranked.openings_complete 1 h.sound_next emits
    have covered := List.all_eq_true.mp h.settled _ opening
    cases meets with
    | nil =>
      -- the rule ends with the call, and what follows it follows the callee
      obtain ⟨kind, hkind, met⟩ := h.inside.follows
      have inAll := predictive.sound.given_subset rule _ hkind
      exact ⟨kind, List.contains_iff_mem.mp (List.all_eq_true.mp covered kind inAll), met⟩
    | @cons t kind taken kinds met _ => exact ⟨kind, List.contains_iff_mem.mp covered, met⟩
  cases rest with
  | cons t rest => exact predictive.sound.narrow callee fits anyOf
  | nil =>
    -- the end of the input may follow however little the callee has used
    obtain ⟨kind, hkind, met⟩ := anyOf
    have ends : c.endToken.kind.satisfies kind = true := met
    rw [h.inside.atEnd] at ends
    obtain rfl := satisfies_endOfInput ends
    exact ⟨.endOfInput, predictive.sound.atEnd callee _ hkind, met⟩

/-- The body of a called rule is read from its start, and nothing comes behind it in its rule. -/
theorem body_of_call (predictive : Predictive g f allowed nullable rank) (tree : c.mode = .tree)
    (atEnd : c.endToken.kind = .endOfInput) (outermost : c.frames = [] → rest = [])
    (follows : ∃ kind ∈ f.given callee (parts.map (·.1)), (c.next rest).meets kind = true) :
    Along g f allowed nullable n (c.inside callee arg follow) callee [] [] (g.productions.get callee)
      (g.plans.get callee) { s with parts := #[] } parts rest [] rest where
  made := predictive.made callee
  settled := predictive.settled callee
  sound := Bool.or_eq_false_iff.mpr ⟨predictive.ranked.repeats callee, rfl⟩
  filed := List.nil_subset _
  goesOn := .nil
  inside := {
    tree
    called := List.cons_ne_nil _ _
    atEnd
    outermost := fun single => outermost (List.length_eq_zero_iff.mp (Nat.succ.inj single))
    follows := by
      have same : State.parts { s with parts := #[] } = #[] := rfl
      rwa [same, List.nil_append, List.append_nil] }

end Along

end Places

end GraphQL
