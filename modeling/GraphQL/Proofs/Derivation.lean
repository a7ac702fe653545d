/-
  What the productions of a grammar derive.

  `Derives g allowed n constant p tokens parts rest` says that `p` matches the front of `tokens`
  and leaves `rest`.  `constant` is the flag under which `p` is read: gates are respected, and each
  call hands on the flag that its argument says.  `parts` are the labelled elements of the match in
  their order; a called rule is one part, its node, which groups the parts of its own match.  At
  most `n` rules are nested in the match.

  Whether a rule may stand where it does can be narrowed: `allowed` is asked about each rule that
  is read, its parts and the tokens after it.  `anywhere` allows all.
-/
import GraphQL.Proofs.TreeContents

namespace GraphQL

/-- Every rule may stand before any tokens. -/
def anywhere : Rule → List Part → List Token → Prop := fun _ _ _ => True

/-- The derivations of a grammar. -/
inductive Derives (g : Productions) (allowed : Rule → List Part → List Token → Prop) :
    (levels : Nat) → (constant : Bool) → Production → (tokens : List Token) → List Part →
      (rest : List Token) → Prop where
  /-- A token meets a demand. -/
  | token {n constant kind t rest} (met : t.meets kind = true) :
      Derives g allowed n constant (.token kind) (t :: rest) [(.token kind, .token t)] rest
  /-- A called rule matches what its production does. -/
  | call {n constant rule arg tokens parts rest}
      (body : Derives g allowed n (arg.resolve constant) (g.get rule) tokens parts rest)
      (fits : allowed rule parts rest) :
      Derives g allowed (n + 1) constant (.call rule arg) tokens
        [(.rule rule, .node (.ofParts rule parts false))] rest
  /-- An empty row matches nothing. -/
  | nil {n constant rest} : Derives g allowed n constant (.sequence []) rest [] rest
  /-- A row matches what its first production and then the others do. -/
  | cons {n constant p items tokens parts mid more rest}
      (first : Derives g allowed n constant p tokens parts mid)
      (others : Derives g allowed n constant (.sequence items) mid more rest) :
      Derives g allowed n constant (.sequence (p :: items)) tokens (parts ++ more) rest
  /-- An optional part may be left out. -/
  | skip {n constant body rest} : Derives g allowed n constant (.optional body) rest [] rest
  /-- An optional part may be there. -/
  | enter {n constant body tokens parts rest}
      (inside : Derives g allowed n constant body tokens parts rest) :
      Derives g allowed n constant (.optional body) tokens parts rest
  /-- A repetition may end. -/
  | done {n constant body rest} : Derives g allowed n constant (.many body) rest [] rest
  /-- A repetition may go round once more. -/
  | again {n constant body tokens parts mid more rest}
      (first : Derives g allowed n constant body tokens parts mid)
      (others : Derives g allowed n constant (.many body) mid more rest) :
      Derives g allowed n constant (.many body) tokens (parts ++ more) rest
  /-- A repetition that must not be empty goes round once at least. -/
  | once {n constant body tokens parts mid more rest}
      (first : Derives g allowed n constant body tokens parts mid)
      (others : Derives g allowed n constant (.many body) mid more rest) :
      Derives g allowed n constant (.atLeastOne body) tokens (parts ++ more) rest
  /-- A choice matches what an open alternative does. -/
  | branch {n constant gate p alternatives tokens parts rest}
      (chosen : (gate, p) ∈ alternatives) (opens : gate.allows constant = true)
      (inside : Derives g allowed n constant p tokens parts rest) :
      Derives g allowed n constant (.choice alternatives) tokens parts rest

namespace Derives

variable {g : Productions} {allowed : Rule → List Part → List Token → Prop} {n : Nat}
  {constant : Bool} {p : Production} {tokens rest : List Token} {parts : List Part}

/-! ## Rows -/

/-- Rows that match one after the other match as one row. -/
theorem append {xs ys : List Production} {mid : List Token} {more : List Part}
    (first : Derives g allowed n constant (.sequence xs) tokens parts mid)
    (second : Derives g allowed n constant (.sequence ys) mid more rest) :
    Derives g allowed n constant (.sequence (xs ++ ys)) tokens (parts ++ more) rest := by
  induction xs generalizing tokens parts with
  | nil =>
    cases first
    exact second
  | cons x xs ih =>
    cases first with
    | cons head others =>
      rw [List.append_assoc]
      exact .cons head (ih others)

/-! ## What a derivation takes -/

/-- What two matches take one after the other. -/
theorem taken_append {tokens mid rest : List Token} {parts more : List Part}
    (h₁ : ∃ taken, tokens = taken ++ mid ∧ (leavesOfParts parts).Perm taken)
    (h₂ : ∃ taken, mid = taken ++ rest ∧ (leavesOfParts more).Perm taken) :
    ∃ taken, tokens = taken ++ rest ∧ (leavesOfParts (parts ++ more)).Perm taken := by
  obtain ⟨taken₁, rfl, perm₁⟩ := h₁
  obtain ⟨taken₂, rfl, perm₂⟩ := h₂
  refine ⟨taken₁ ++ taken₂, by rw [List.append_assoc], ?_⟩
  rw [leavesOfParts_append]
  exact perm₁.append perm₂

/-- The tokens of the parts are those that were taken, each as often as there. -/
theorem exists_taken (h : Derives g allowed n constant p tokens parts rest) :
    ∃ taken, tokens = taken ++ rest ∧ (leavesOfParts parts).Perm taken := by
  induction h with
  | token => exact ⟨[_], rfl, by simp⟩
  | @call _ _ rule _ _ parts _ _ _ ih =>
    obtain ⟨taken, ht, perm⟩ := ih
    refine ⟨taken, ht, ?_⟩
    rw [leavesOfParts_node]
    exact (Node.leaves_ofParts rule parts false).trans perm
  | nil => exact ⟨[], rfl, .nil⟩
  | skip => exact ⟨[], rfl, .nil⟩
  | done => exact ⟨[], rfl, .nil⟩
  | enter _ ih => exact ih
  | branch _ _ _ ih => exact ih
  | cons _ _ ih₁ ih₂ => exact taken_append ih₁ ih₂
  | again _ _ ih₁ ih₂ => exact taken_append ih₁ ih₂
  | once _ _ ih₁ ih₂ => exact taken_append ih₁ ih₂

/-- No node of a derivation was broken off. -/
theorem recovered_eq_false (h : Derives g allowed n constant p tokens parts rest) {label : Label}
    {node m : Node} (part : (label, .node node) ∈ parts) (within : m.Within node) :
    m.recovered = false := by
  induction h generalizing label node m with
  | token => simp at part
  | @call _ _ rule _ _ parts _ _ _ ih =>
    -- the node of a call is not marked, and what is within it was derived by its body
    obtain ⟨-, rfl⟩ := by simpa using part
    cases within with
    | root => rfl
    | step child within =>
      obtain ⟨label, inner⟩ := Node.mem_children_ofParts.mp child
      exact ih inner within
  | nil => cases part
  | skip => cases part
  | done => cases part
  | enter _ ih => exact ih part within
  | branch _ _ _ ih => exact ih part within
  | cons _ _ ih₁ ih₂ => exact (List.mem_append.mp part).elim (ih₁ · within) (ih₂ · within)
  | again _ _ ih₁ ih₂ => exact (List.mem_append.mp part).elim (ih₁ · within) (ih₂ · within)
  | once _ _ ih₁ ih₂ => exact (List.mem_append.mp part).elim (ih₁ · within) (ih₂ · within)

end Derives

end GraphQL
