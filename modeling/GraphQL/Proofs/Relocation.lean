/-
  Derivations in another place.

  A derivation is a fact about the tokens that it takes.  What it says about the rest is only that
  its rules may stand where they do, so it can be carried over to another place:

  * before other tokens, if what is allowed before the one rest is allowed before the other
    (`Derives.movable`);
  * where more rules may be nested (`Derives.deeper`);
  * where variables may stand, if the grammar closes no alternative for want of the flag "only
    constants" (`Derives.unrestrict`);
  * where something else is asked of the rules, if all rules that it can call pass that as well
    (`Derives.among`).

  The derivation of a tree holds one of each node in the tree, of a stretch of the tokens
  (`Derives.exists_stretch`).
-/
import GraphQL.Proofs.Conformance
import GraphQL.Proofs.Derivation

namespace GraphQL

/-- What is allowed before some tokens is allowed before others. -/
def AllowedAlike (allowed : Rule → List Part → List Token → Prop) (rest rest' : List Token) : Prop :=
  ∀ rule parts front, allowed rule parts (front ++ rest) → allowed rule parts (front ++ rest')

section Derivations

variable {g : Productions} {allowed allowed' : Rule → List Part → List Token → Prop} {n : Nat}
  {constant : Bool} {p q r : Production} {tokens mid rest : List Token} {parts more : List Part}

/-! ## Before other tokens -/

/-- A match that can stand before other tokens. -/
def Derives.Movable (g : Productions) (allowed : Rule → List Part → List Token → Prop) (n : Nat)
    (constant : Bool) (p : Production) (tokens : List Token) (parts : List Part)
    (rest : List Token) : Prop :=
  ∃ taken, tokens = taken ++ rest ∧ ∀ rest', AllowedAlike allowed rest rest' →
    Derives g allowed n constant p (taken ++ rest') parts rest'

/-- Two matches one after the other can be moved together. -/
theorem Derives.Movable.append
    (join : ∀ {tokens mid rest}, Derives g allowed n constant p tokens parts mid →
      Derives g allowed n constant q mid more rest →
      Derives g allowed n constant r tokens (parts ++ more) rest)
    (h₁ : Movable g allowed n constant p tokens parts mid)
    (h₂ : Movable g allowed n constant q mid more rest) :
    Movable g allowed n constant r tokens (parts ++ more) rest := by
  obtain ⟨taken₁, rfl, move₁⟩ := h₁
  obtain ⟨taken₂, rfl, move₂⟩ := h₂
  refine ⟨taken₁ ++ taken₂, by rw [List.append_assoc], fun rest' alike => ?_⟩
  have alike₁ : AllowedAlike allowed (taken₂ ++ rest) (taken₂ ++ rest') := by
    intro rule parts front fits
    rw [← List.append_assoc] at fits ⊢
    exact alike rule parts (front ++ taken₂) fits
  rw [List.append_assoc]
  exact join (move₁ _ alike₁) (move₂ _ alike)

/-- A match does not depend on the tokens behind it beyond what its rules are asked. -/
theorem Derives.movable (h : Derives g allowed n constant p tokens parts rest) :
    Derives.Movable g allowed n constant p tokens parts rest := by
  -- by induction on the derivation: what it takes is followed by anything that is allowed alike
  induction h with
  | token met => exact ⟨[_], rfl, fun _ _ => .token met⟩
  | call _ fits ih =>
    obtain ⟨taken, ht, move⟩ := ih
    exact ⟨taken, ht, fun rest' alike => .call (move rest' alike) (alike _ _ [] fits)⟩
  | nil => exact ⟨[], rfl, fun _ _ => .nil⟩
  | skip => exact ⟨[], rfl, fun _ _ => .skip⟩
  | done => exact ⟨[], rfl, fun _ _ => .done⟩
  | enter _ ih =>
    obtain ⟨taken, ht, move⟩ := ih
    exact ⟨taken, ht, fun rest' alike => .enter (move rest' alike)⟩
  | branch chosen opens _ ih =>
    obtain ⟨taken, ht, move⟩ := ih
    exact ⟨taken, ht, fun rest' alike => .branch chosen opens (move rest' alike)⟩
  | cons _ _ ih₁ ih₂ => exact .append .cons ih₁ ih₂
  | again _ _ ih₁ ih₂ => exact .append .again ih₁ ih₂
  | once _ _ ih₁ ih₂ => exact .append .once ih₁ ih₂

/-! ## Where other things are asked of rules -/

/-- If a production calls some rules only, and so do these, and what is allowed for them in one
    place is allowed in the other, a derivation of it can stand in the other place.  There rules may
    be nested deeper, too. -/
theorem Derives.among {rules : List Rule} (closed : ∀ r ∈ rules, (g.get r).calls ⊆ rules)
    (fits : ∀ r ∈ rules, ∀ parts rest, allowed r parts rest → allowed' r parts rest)
    (h : Derives g allowed n constant p tokens parts rest) (called : p.calls ⊆ rules) {m : Nat}
    (deep : n ≤ m) : Derives g allowed' m constant p tokens parts rest := by
  induction h generalizing m with
  | token met => exact .token met
  | @call n constant rule arg tokens parts rest _ fit ih =>
    -- the body of a call among the rules calls rules among them
    have mem : rule ∈ rules := called (List.mem_singleton_self _)
    cases m with
    | zero => exact absurd deep (Nat.not_succ_le_zero n)
    | succ m =>
      have body := ih (closed rule mem) (Nat.le_of_succ_le_succ deep)
      exact .call body (fits rule mem parts rest fit)
  | nil => exact .nil
  | skip => exact .skip
  | done => exact .done
  | enter _ ih => exact .enter (ih called deep)
  | branch chosen opens _ ih =>
    -- an alternative calls no more than the choice
    have fewer := List.Subset.trans (Production.calls_subset_of_mem chosen) called
    exact .branch chosen opens (ih fewer deep)
  | cons _ _ ih₁ ih₂ =>
    obtain ⟨first, others⟩ := List.append_subset.mp called
    exact .cons (ih₁ first deep) (ih₂ others deep)
  | again _ _ ih₁ ih₂ => exact .again (ih₁ called deep) (ih₂ called deep)
  | once _ _ ih₁ ih₂ => exact .once (ih₁ called deep) (ih₂ called deep)

/-- A derivation may stand where more rules may be nested. -/
theorem Derives.deeper (h : Derives g allowed n constant p tokens parts rest) {m : Nat}
    (deep : n ≤ m) : Derives g allowed m constant p tokens parts rest := by
  have known : ∀ rules : List Rule, rules ⊆ Rule.all := fun _ r _ => Rule.mem_all r
  exact h.among (fun _ _ => known _) (fun _ _ _ _ fit => fit) (known _) deep

/-! ## Where variables may stand -/

namespace Production

mutual

/-- The gates of the alternatives in a production. -/
def gates : Production → List Gate
  | .token _ => []
  | .call _ _ => []
  | .sequence items => gatesOfAll items
  | .optional body => body.gates
  | .many body => body.gates
  | .atLeastOne body => body.gates
  | .choice alternatives => gatesOfAlternatives alternatives

/-- The gates in productions in a row. -/
def gatesOfAll : List Production → List Gate
  | [] => []
  | p :: rest => p.gates ++ gatesOfAll rest

/-- The gates of alternatives and those behind them. -/
def gatesOfAlternatives : List (Gate × Production) → List Gate
  | [] => []
  | (gate, p) :: rest => gate :: p.gates ++ gatesOfAlternatives rest

end

/-- An alternative has its gate, and no gates but those of the choice. -/
theorem gates_subset_of_mem {gate : Gate} {p : Production}
    {alternatives : List (Gate × Production)} (h : (gate, p) ∈ alternatives) :
    gate :: p.gates ⊆ gatesOfAlternatives alternatives := by
  induction alternatives with
  | nil => cases h
  | cons alternative rest ih =>
    rcases List.mem_cons.mp h with rfl | h
    · exact List.subset_append_left ..
    · exact List.Subset.trans (ih h) (List.subset_append_right ..)

end Production

/-- A gate that is open under the flag, and does not ask for it, is open without it. -/
theorem Gate.allows_unrestricted {gate : Gate} {constant : Bool} (free : gate ≠ .whenConst)
    (opens : gate.allows constant = true) : gate.allows false = true := by
  cases gate with
  | always => rfl
  | whenConst => exact absurd rfl free
  | unlessConst => rfl

/-- What is derived where only constants may stand is derived where variables may stand, in a
    grammar with no alternative that is open to constants alone. -/
theorem Derives.unrestrict (free : ∀ r, .whenConst ∉ (g.get r).gates)
    (h : Derives g allowed n constant p tokens parts rest) (here : .whenConst ∉ p.gates) :
    Derives g allowed n false p tokens parts rest := by
  induction h with
  | token met => exact .token met
  | @call n constant rule arg tokens parts rest body fits ih =>
    cases arg with
    -- a call that passes a flag of its own does not see the one around it
    | fixed flag => exact .call body fits
    -- a call that passes the flag on has a body without such gates
    | inherited => exact .call (ih (free rule)) fits
  | nil => exact .nil
  | skip => exact .skip
  | done => exact .done
  | enter _ ih => exact .enter (ih here)
  | @branch n constant gate p alternatives tokens parts rest chosen opens _ ih =>
    have gates := Production.gates_subset_of_mem chosen
    -- no gate here asks for the flag
    have free : gate ≠ .whenConst := by
      rintro rfl
      exact here (gates List.mem_cons_self)
    have inside := ih fun mem => here (gates (List.mem_cons_of_mem _ mem))
    exact .branch chosen (Gate.allows_unrestricted free opens) inside
  | cons _ _ ih₁ ih₂ =>
    have first := ih₁ fun mem => here (List.mem_append_left _ mem)
    have others := ih₂ fun mem => here (List.mem_append_right _ mem)
    exact .cons first others
  | again _ _ ih₁ ih₂ => exact .again (ih₁ here) (ih₂ here)
  | once _ _ ih₁ ih₂ => exact .once (ih₁ here) (ih₂ here)

/-- A rule that is called where only constants may stand can be called where variables may. -/
theorem Derives.call_unrestrict (free : ∀ r, .whenConst ∉ (g.get r).gates) {rule : Rule}
    {arg : ConstArg} (h : Derives g allowed n constant (.call rule arg) tokens parts rest) :
    Derives g allowed n constant (.call rule (.fixed false)) tokens parts rest := by
  cases h with
  | call body fits => exact .call (body.unrestrict free (free rule)) fits

/-! ## The nodes of a derivation -/

theorem Derives.rest_suffix (h : Derives g allowed n constant p tokens parts rest) :
    rest <:+ tokens := by
  obtain ⟨taken, rfl, -⟩ := h.movable
  exact List.suffix_append taken rest

/-- Somewhere between the tokens and the rest a node is derived by itself, of a call that passes a
    flag of its own. -/
def Derives.Stretch (g : Productions) (allowed : Rule → List Part → List Token → Prop) (n : Nat)
    (m : Node) (tokens rest : List Token) : Prop :=
  ∃ start stop k flag, start <:+ tokens ∧ rest <:+ stop ∧ k ≤ n ∧
    Derives g allowed k false (.call m.rule (.fixed flag)) start [(.rule m.rule, .node m)] stop

/-- A node that is derived somewhere in a stretch of tokens is derived somewhere in any longer
    one. -/
theorem Derives.Stretch.widen {m : Node} {k : Nat} {tokens' rest' : List Token}
    (h : Stretch g allowed k m tokens rest) (front : tokens <:+ tokens') (back : rest' <:+ rest)
    (deep : k ≤ n) : Stretch g allowed n m tokens' rest' := by
  obtain ⟨start, stop, level, flag, hstart, hstop, hlevel, derives⟩ := h
  exact ⟨start, stop, level, flag, hstart.trans front, back.trans hstop,
    Nat.le_trans hlevel deep, derives⟩

/-- Two matches one after the other: each node is derived in the first or in the second. -/
theorem Derives.Stretch.append {node m : Node} {label : Label}
    (first : Derives g allowed n constant p tokens parts mid)
    (second : Derives g allowed n constant q mid more rest)
    (h₁ : (label, .node node) ∈ parts → Stretch g allowed n m tokens mid)
    (h₂ : (label, .node node) ∈ more → Stretch g allowed n m mid rest)
    (part : (label, .node node) ∈ parts ++ more) : Stretch g allowed n m tokens rest := by
  rcases List.mem_append.mp part with part | part
  · exact (h₁ part).widen List.suffix_rfl second.rest_suffix (Nat.le_refl n)
  · exact (h₂ part).widen first.rest_suffix List.suffix_rfl (Nat.le_refl n)

/-- Each node of a derivation is derived of a stretch of its tokens.  Induction on the derivation;
    behind a call the way goes on to the parts of its body. -/
theorem Derives.exists_stretch (h : Derives g allowed n constant p tokens parts rest)
    {label : Label} {node m : Node} (part : (label, .node node) ∈ parts) (within : m.Within node) :
    Derives.Stretch g allowed n m tokens rest := by
  induction h generalizing label node with
  | token => simp at part
  | @call n constant rule arg tokens parts rest body fits ih =>
    obtain ⟨-, rfl⟩ := by simpa using part
    cases within with
    | root =>
      -- the node of the call itself is derived by it
      refine ⟨tokens, rest, n + 1, arg.resolve constant, List.suffix_rfl, List.suffix_rfl,
        Nat.le_refl _, ?_⟩
      exact .call body fits
    | step child within =>
      -- a node below it is derived by the body
      obtain ⟨label, inner⟩ := Node.mem_children_ofParts.mp child
      exact (ih inner within).widen List.suffix_rfl List.suffix_rfl (Nat.le_succ n)
  | nil => cases part
  | skip => cases part
  | done => cases part
  | enter _ ih => exact ih part within
  | branch _ _ _ ih => exact ih part within
  | cons first others ih₁ ih₂ => exact .append first others (ih₁ · within) (ih₂ · within) part
  | again first others ih₁ ih₂ => exact .append first others (ih₁ · within) (ih₂ · within) part
  | once first others ih₁ ih₂ => exact .append first others (ih₁ · within) (ih₂ · within) part

end Derivations

end GraphQL
