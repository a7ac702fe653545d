/-
  What productions ask for.

  The demands of a production are the kinds of token that it names.  They matter at the end of the
  input: what stands behind the last token has the kind `endOfInput`, and it is never used up.  A
  grammar whose productions do not ask for it never files it.
-/
import GraphQL.Parsing
import GraphQL.Proofs.PlanShape

namespace GraphQL

/-! ## Demands of productions -/

namespace Production

mutual

/-- The kinds of token that a production asks for. -/
def demands : Production → List TokenKind
  | .token kind => [kind]
  | .call _ _ => []
  | .sequence items => demandsOfAll items
  | .optional body => body.demands
  | .many body => body.demands
  | .atLeastOne body => body.demands
  | .choice alternatives => demandsOfAlternatives alternatives

/-- The demands of productions in a row. -/
def demandsOfAll : List Production → List TokenKind
  | [] => []
  | p :: rest => p.demands ++ demandsOfAll rest

/-- The demands of the alternatives of a choice. -/
def demandsOfAlternatives : List (Gate × Production) → List TokenKind
  | [] => []
  | (_, p) :: rest => p.demands ++ demandsOfAlternatives rest

end

/-- An alternative demands no more than the choice does. -/
theorem demands_subset_of_mem {gate : Gate} {p : Production}
    {alternatives : List (Gate × Production)} (h : (gate, p) ∈ alternatives) :
    p.demands ⊆ demandsOfAlternatives alternatives := by
  induction alternatives with
  | nil => cases h
  | cons alternative rest ih =>
    rcases List.mem_cons.mp h with rfl | h
    · exact List.subset_append_left ..
    · exact List.Subset.trans (ih h) (List.subset_append_right ..)

end Production

/-- No production of the table asks for the kind. -/
def Productions.NeverExpects (g : Productions) (kind : TokenKind) : Prop :=
  ∀ r, kind ∉ (g.get r).demands

instance (g : Productions) (kind : TokenKind) : Decidable (g.NeverExpects kind) :=
  decidable_of_iff (∀ r ∈ Rule.all, kind ∉ (g.get r).demands)
    ⟨fun h r => h r (Rule.mem_all r), fun h r _ => h r⟩

/-! ## Demands of plans -/

namespace Plan

/-- The demands of a row are those of its first plan and of the others. -/
theorem demands_cons (p : Plan) (rest : List Plan) :
    (Plan.sequence (p :: rest)).production.demands
      = p.production.demands ++ (Plan.sequence rest).production.demands := rfl

/-- Whether or not it may be empty, a repetition has the demands of its body. -/
theorem demands_repetition (nonempty : Bool) (ahead : Lookahead) (body : Plan)
    (after : AfterRepetition) :
    (Plan.repetition nonempty ahead body after).production.demands = body.production.demands := by
  cases nonempty <;> rfl

/-- A branch has no other demands than its choice. -/
theorem demands_branch {gate : Gate} {ahead : Lookahead} {p : Plan}
    {branches : List (Gate × Lookahead × Plan)} (h : (gate, ahead, p) ∈ branches) :
    p.production.demands ⊆ (Plan.choice branches).production.demands :=
  Production.demands_subset_of_mem (mem_alternativesOf h)

end Plan

/-! ## The end of the input -/

theorem satisfies_endOfInput {demand : TokenKind}
    (h : TokenKind.endOfInput.satisfies demand = true) : demand = .endOfInput := by
  cases demand with
  | category category => simp [TokenKind.satisfies, TokenKind.isIn] at h
  | endOfInput => rfl
  | _ => simp [TokenKind.satisfies] at h

/-- A category as a kind meets itself alone. -/
theorem satisfies_category {c : Category} {demand : TokenKind}
    (h : (TokenKind.category c).satisfies demand = true) : demand = .category c := by
  cases demand with
  | category other =>
    rcases Bool.or_eq_true_iff.mp h with h | h
    · exact (eq_of_beq h).symm
    · cases h
  | _ => simp [TokenKind.satisfies] at h

theorem kind_endOf (tokens : List Token) : (Token.endOf tokens).kind = .endOfInput := by
  unfold Token.endOf
  split <;> rfl

/-- Where the demand of a plan that does not ask for the end of the input is met, a token is
    left. -/
theorem exists_cons_of_meets {c : Context} {rest : List Token} {kind : TokenKind}
    {follow : List TokenKind} (atEnd : c.endToken.kind = .endOfInput)
    (noEnd : .endOfInput ∉ (Plan.token kind follow).production.demands)
    (met : (c.next rest).meets kind = true) :
    ∃ t rest', rest = t :: rest' ∧ t.meets kind = true := by
  cases rest with
  | nil =>
    have ends : c.endToken.kind.satisfies kind = true := met
    rw [atEnd] at ends
    obtain rfl := satisfies_endOfInput ends
    exact absurd (List.mem_singleton_self _) noEnd
  | cons t rest => exact ⟨t, rest, rfl, met⟩

/-- Where such a demand is met by the second token, two are left. -/
theorem exists_cons_cons_of_meets {c : Context} {rest : List Token} {kind : TokenKind}
    {follow : List TokenKind} (atEnd : c.endToken.kind = .endOfInput)
    (noEnd : .endOfInput ∉ (Plan.token kind follow).production.demands)
    (met : (c.second rest).meets kind = true) : ∃ u t rest', rest = u :: t :: rest' := by
  obtain ⟨t, rest', tail, -⟩ := exists_cons_of_meets atEnd noEnd met
  cases rest with
  | nil => cases tail
  | cons u others =>
    obtain rfl : others = t :: rest' := tail
    exact ⟨u, t, rest', rfl⟩

end GraphQL
