/-
  A clause in braces is taken where a brace stands.

  The last part of some rules may be left out and begins with a token of one kind.  A reading that
  has come to the end of such a rule has filed that part, or it stands before no token of that kind:
  lookahead would have seen it.  `Plan.claims` computes from a plan that its rule is so, and
  `Run.filed_or_unmet` says what that means for a run.

  So no reading leaves out a clause in braces before a brace, and a parse without mistakes is a
  derivation of the kind that is always found again (`exists_derivation`).
-/
import GraphQL.Proofs.Soundness
import GraphQL.Proofs.StandardFollow

namespace GraphQL

/-! ## Plans that claim a token -/

namespace Plan

mutual

/-- Whether a plan ends with a call of a rule that is left out only before tokens of other kinds. -/
def claims (rule : Rule) (kind : TokenKind) : Plan → Bool
  | .call callee _ _ => callee == rule
  | .sequence items => claimsLast rule kind items
  | .optional ahead body => ahead.paths.contains [kind] && body.claims rule kind
  | .choice branches => claimsInEach rule kind branches
  | .token _ _ => false
  | .repetition _ _ _ _ => false

/-- The same, for the last of plans in a row. -/
def claimsLast (rule : Rule) (kind : TokenKind) : List Plan → Bool
  | [] => false
  | [p] => p.claims rule kind
  | _ :: p :: rest => claimsLast rule kind (p :: rest)

/-- The same, for each branch of a choice. -/
def claimsInEach (rule : Rule) (kind : TokenKind) : List (Gate × Lookahead × Plan) → Bool
  | [] => true
  | (_, _, p) :: rest => p.claims rule kind && claimsInEach rule kind rest

end

/-- Each branch of a choice claims what all of them do. -/
theorem claims_of_mem {rule : Rule} {kind : TokenKind} {gate : Gate} {ahead : Lookahead} {p : Plan}
    {branches : List (Gate × Lookahead × Plan)} (chosen : (gate, ahead, p) ∈ branches)
    (h : claimsInEach rule kind branches = true) : p.claims rule kind = true := by
  induction branches with
  | nil => cases chosen
  | cons branch rest ih =>
    obtain ⟨first, others⟩ := Bool.and_eq_true_iff.mp h
    rcases List.mem_cons.mp chosen with rfl | chosen
    · exact first
    · exact ih chosen others

end Plan

/-- What a lookahead for a single token does not see is not there. -/
theorem unmet_of_not_sees {c : Context} {ahead : Lookahead} {kind : TokenKind} {rest : List Token}
    (path : ahead.paths.contains [kind] = true) (closed : c.sees ahead rest = false) :
    (c.next rest).meets kind = false := by
  refine eq_false_of_ne_true fun met => ?_
  have onPath : c.onPath [kind] rest = true := by
    rw [Context.onPath, met]
    rfl
  have opens : c.sees ahead rest = true :=
    List.any_eq_true.mpr ⟨[kind], List.contains_iff_mem.mp path, onPath⟩
  rw [closed] at opens
  cases opens

section Running

variable {g : Grammar} {n : Nat} {c : Context} {plan : Plan} {s s' : State} {ending : Ending}
  {rule : Rule} {kind : TokenKind}

/-- Where a plan that claims a token has been read to its end, the part that begins with the token
    has been filed, or the token is not there.  Induction on the run; what the parts of a row file
    is decided by its last one. -/
theorem Run.filed_or_unmet (h : Run g n c plan s s' ending) (complete : ending = .complete)
    (tree : c.mode = .tree) (claims : plan.claims rule kind = true) :
    .rule rule ∈ s'.parts.toList.map (·.1) ∨ (c.next s'.rest).meets kind = false := by
  induction h with
  -- tokens, repetitions and empty rows claim nothing
  | take => cases claims
  | insert => cases claims
  | delete => cases claims
  | miss => cases claims
  | nil => cases claims
  | noRound => cases claims
  | round => cases claims
  | idle => cases claims
  | broken => cases claims
  | leave => cases claims
  | resume => cases claims
  -- these are cut short
  | abort => cases complete
  | unwind => cases complete
  | tooDeep => cases complete
  | noBranch => cases complete
  | cut _ cuts => exact absurd complete cuts
  -- a rule that is left, on time or late, is filed
  | close =>
    left
    rw [parts_close, Context.mode_inside, tree, eq_of_beq claims]
    simp [Mode.kept]
  | resync =>
    left
    rw [parts_close, Context.mode_inside, tree, eq_of_beq claims]
    simp [Mode.kept]
  | @cons n c p rest s mid s' ending first others ih₁ ih₂ =>
    cases rest with
    | nil =>
      cases others
      exact ih₁ rfl tree claims
    | cons q rest => exact ih₂ complete tree claims
  | skip closed =>
    obtain ⟨path, -⟩ := Bool.and_eq_true_iff.mp claims
    exact .inr (unmet_of_not_sees path closed)
  | enter _ _ ih =>
    obtain ⟨-, inside⟩ := Bool.and_eq_true_iff.mp claims
    exact ih complete tree inside
  | branch chosen _ _ _ ih => exact ih complete tree (Plan.claims_of_mem chosen claims)

end Running

/-! ## The standard grammar -/

namespace Standard

set_option maxRecDepth 100000 in
/-- A rule with a clause in braces that may be left out claims a brace for it. -/
theorem claims_clause {r clause : Rule} (h : clause? r = some clause) :
    (grammar.plans.get r).claims clause (.punctuator .leftBrace) = true := by
  have all : ∀ r ∈ Rule.all, (clause? r).all (fun clause =>
      (grammar.plans.get r).claims clause (.punctuator .leftBrace)) = true := by
    decide +kernel
  have claims := all r (Rule.mem_all r)
  rw [h, Option.all_some] at claims
  exact claims

/-- No reading of the standard grammar leaves out a clause in braces before a brace. -/
theorem keeps_noDangling : grammar.Keeps .tree NoDangling := by
  intro n c r s s' parts tree run _ filed clause hclause unused t next brace
  rcases run.filed_or_unmet rfl tree (claims_clause hclause) with used | unmet
  · rw [filed] at used
    exact unused used
  · obtain ⟨rest, hrest⟩ : ∃ rest, s'.rest = t :: rest := by
      cases h : s'.rest with
      | nil => rw [h] at next; cases next
      | cons u rest => rw [h] at next; cases next; exact ⟨rest, rfl⟩
    have met : (c.next s'.rest).meets (.punctuator .leftBrace) = true := by
      rw [hrest]
      show t.kind.satisfies (.punctuator .leftBrace) = true
      rw [brace]
      rfl
    rw [met] at unmet
    cases unmet

/-- A parse without mistakes is a derivation in which no clause in braces is left out before a
    brace. -/
theorem exists_derivation {entry : Rule} {tokens : List Token} {tree : Node}
    (clean : grammar.parse entry tokens = ⟨some tree, []⟩) :
    Derives productions NoDangling maxDepth false (.call entry (.fixed false)) tokens
      [(.rule entry, .node tree)] [] := by
  have none : (grammar.parse entry tokens).errors = [] := by rw [clean]
  obtain ⟨found, derives, htree⟩ :=
    derivation_of_clean finish_eq reserved keeps_noDangling entry tokens none
  have same := htree rfl
  rw [clean] at same
  cases same
  exact derives

end Standard

end GraphQL
