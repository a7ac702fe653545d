/-
  What a rule read, item by item.

  `Matches g p taken parts` is a derivation without its surroundings: `p` matches just the tokens
  `taken`, which are spelled as texts spell them, and lays out `parts`.  Every derivation of such
  tokens is a match (`Derives.matches`).

  A production of the standard grammar is a row of items, and there are few sorts of them: a token,
  a nested rule, an optional one, a list.  There is one lemma for each sort that takes it off the
  front of a row; what it leaves are parts whose nodes and tokens under any label are known
  (`nodesUnder`, `tokensUnder`), and nodes that were read from known tokens (`ReadFrom`).
-/
import GraphQL.Proofs.Conformance
import GraphQL.Proofs.Derivation
import GraphQL.Proofs.Spelling
import GraphQL.Proofs.StandardGrammar
import GraphQL.Proofs.Superfluous

namespace GraphQL

/-! ## Matches -/

/-- A production matches some tokens. -/
inductive Matches (g : Productions) : Production → List Token → List Part → Prop where
  | token {kind t} (met : t.meets kind = true) (spelled : t.Spelled) :
      Matches g (.token kind) [t] [(.token kind, .token t)]
  | call {rule arg taken parts} (body : Matches g (g.get rule) taken parts) :
      Matches g (.call rule arg) taken [(.rule rule, .node (.ofParts rule parts false))]
  | nil : Matches g (.sequence []) [] []
  | cons {p items taken parts taken' parts'} (first : Matches g p taken parts)
      (others : Matches g (.sequence items) taken' parts') :
      Matches g (.sequence (p :: items)) (taken ++ taken') (parts ++ parts')
  | skip {body} : Matches g (.optional body) [] []
  | enter {body taken parts} (inside : Matches g body taken parts) :
      Matches g (.optional body) taken parts
  | done {body} : Matches g (.many body) [] []
  | again {body taken parts taken' parts'} (first : Matches g body taken parts)
      (others : Matches g (.many body) taken' parts') :
      Matches g (.many body) (taken ++ taken') (parts ++ parts')
  | once {body taken parts taken' parts'} (first : Matches g body taken parts)
      (others : Matches g (.many body) taken' parts') :
      Matches g (.atLeastOne body) (taken ++ taken') (parts ++ parts')
  | branch {gate p alternatives taken parts} (chosen : (gate, p) ∈ alternatives)
      (inside : Matches g p taken parts) : Matches g (.choice alternatives) taken parts

section Derivations

variable {g : Productions} {allowed : Rule → List Part → List Token → Prop} {n : Nat}
  {constant : Bool} {p q r : Production} {tokens mid rest : List Token} {parts more : List Part}

/-- Two matches one after the other. -/
theorem matches_append
    (join : ∀ {taken taken' parts more}, Matches g p taken parts → Matches g q taken' more →
      Matches g r (taken ++ taken') (parts ++ more))
    (spelled : ∀ t ∈ tokens, t.Spelled)
    (h₁ : (∀ t ∈ tokens, t.Spelled) → ∃ taken, tokens = taken ++ mid ∧ Matches g p taken parts)
    (h₂ : (∀ t ∈ mid, t.Spelled) → ∃ taken, mid = taken ++ rest ∧ Matches g q taken more) :
    ∃ taken, tokens = taken ++ rest ∧ Matches g r taken (parts ++ more) := by
  obtain ⟨taken, rfl, first⟩ := h₁ spelled
  obtain ⟨taken', rfl, second⟩ := h₂ fun t ht => spelled t (List.mem_append_right _ ht)
  exact ⟨taken ++ taken', (List.append_assoc ..).symm, join first second⟩

/-- A derivation is a match of the tokens that it takes. -/
theorem Derives.matches (h : Derives g allowed n constant p tokens parts rest)
    (spelled : ∀ t ∈ tokens, t.Spelled) :
    ∃ taken, tokens = taken ++ rest ∧ Matches g p taken parts := by
  -- by induction on the derivation: what it leaves over is cut off
  induction h with
  | token met => exact ⟨[_], rfl, .token met (spelled _ List.mem_cons_self)⟩
  | call _ _ ih =>
    obtain ⟨taken, ht, body⟩ := ih spelled
    exact ⟨taken, ht, .call body⟩
  | nil => exact ⟨[], rfl, .nil⟩
  | skip => exact ⟨[], rfl, .skip⟩
  | done => exact ⟨[], rfl, .done⟩
  | enter _ ih =>
    obtain ⟨taken, ht, inside⟩ := ih spelled
    exact ⟨taken, ht, .enter inside⟩
  | branch chosen _ _ ih =>
    obtain ⟨taken, ht, inside⟩ := ih spelled
    exact ⟨taken, ht, .branch chosen inside⟩
  | cons _ _ ih₁ ih₂ => exact matches_append .cons spelled ih₁ ih₂
  | again _ _ ih₁ ih₂ => exact matches_append .again spelled ih₁ ih₂
  | once _ _ ih₁ ih₂ => exact matches_append .once spelled ih₁ ih₂

end Derivations

/-! ## Parts under a label -/

/-- The parts of nested readings of a rule. -/
def nodeParts (r : Rule) (cs : List Node) : List Part := cs.map fun c => (.rule r, .node c)

/-- The parts of tokens that met a demand. -/
def tokenParts (demand : TokenKind) (ts : List Token) : List Part :=
  ts.map fun t => (.token demand, .token t)

/-- The nested readings of a rule among some parts. -/
def nodesUnder (r : Rule) (parts : List Part) : List Node :=
  parts.filterMap fun (l, e) => if l = .rule r then e.node? else none

/-- The tokens that met a demand among some parts. -/
def tokensUnder (demand : TokenKind) (parts : List Part) : List Token :=
  parts.filterMap fun (l, e) => if l = .token demand then e.token? else none

section Under

variable {r q : Rule} {demand other : TokenKind} {ps qs : List Part} {cs : List Node}
  {ts : List Token}

@[simp] theorem nodesUnder_nil : nodesUnder r [] = [] := rfl

@[simp] theorem tokensUnder_nil : tokensUnder demand [] = [] := rfl

@[simp] theorem nodesUnder_append : nodesUnder r (ps ++ qs) = nodesUnder r ps ++ nodesUnder r qs :=
  List.filterMap_append

/-- The tokens under a label are found part by part. -/
@[simp] theorem tokensUnder_append :
    tokensUnder demand (ps ++ qs) = tokensUnder demand ps ++ tokensUnder demand qs :=
  List.filterMap_append

/-- Readings of a rule are found under that rule and under no other. -/
@[simp] theorem nodesUnder_nodeParts : nodesUnder r (nodeParts q cs) = if q = r then cs else [] := by
  by_cases h : q = r <;>
    simp [nodesUnder, nodeParts, List.filterMap_map, h, Element.node?]

@[simp] theorem nodesUnder_tokenParts : nodesUnder r (tokenParts demand ts) = [] := by
  simp [nodesUnder, tokenParts]

@[simp] theorem tokensUnder_nodeParts : tokensUnder demand (nodeParts r cs) = [] := by
  simp [tokensUnder, nodeParts]

/-- Tokens that met a demand are found under that demand and under no other. -/
@[simp] theorem tokensUnder_tokenParts :
    tokensUnder demand (tokenParts other ts) = if other = demand then ts else [] := by
  by_cases h : other = demand <;>
    simp [tokensUnder, tokenParts, List.filterMap_map, h, Element.token?]

@[simp] theorem nodeParts_nil : nodeParts r [] = [] := rfl

@[simp] theorem tokenParts_nil : tokenParts demand [] = [] := rfl

/-- What is superfluous in parts that are readings is what is superfluous in these readings. -/
@[simp] theorem superfluousOfParts_nodeParts :
    superfluousOfParts (nodeParts r cs) = cs.flatMap Node.superfluous := by
  simp [superfluousOfParts, nodeParts, List.flatMap_map, Element.superfluous]

@[simp] theorem superfluousOfParts_tokenParts : superfluousOfParts (tokenParts demand ts) = [] := by
  simp [superfluousOfParts, tokenParts, List.flatMap_map, Element.superfluous]

end Under

section Nodes

variable {r q : Rule} {demand : TokenKind} {parts : List Part} {recovered : Bool}

/-- A node has the readings of a rule that its parts have, in their order. -/
@[simp] theorem Node.nodes_ofParts : (ofParts r parts recovered).nodes q = nodesUnder q parts := by
  rw [nodes, elements_ofParts, List.filterMap_filterMap, nodesUnder]
  refine List.filterMap_congr fun p _ => ?_
  by_cases h : p.1 = .rule q <;> simp [h]

/-- A node has the tokens of a demand that its parts have, in their order. -/
@[simp] theorem Node.tokens_ofParts :
    (ofParts r parts recovered).tokens demand = tokensUnder demand parts := by
  rw [tokens, elements_ofParts, List.filterMap_filterMap, tokensUnder]
  refine List.filterMap_congr fun p _ => ?_
  by_cases h : p.1 = .token demand <;> simp [h]

/-- The one token of a demand is the first that met it. -/
@[simp] theorem Node.token?_ofParts :
    (ofParts r parts recovered).token? demand = (tokensUnder demand parts).head? := by
  rw [token?, tokens_ofParts]

/-- Where there is one nested reading, it is the one child. -/
theorem Node.children_eq_singleton {n c : Node} (laid : n = ofParts r parts recovered)
    (h : parts.filterMap (·.2.node?) = [c]) : n.children = [c] := by
  subst laid
  have perm := (perm_group parts).filterMap Element.node?
  rw [List.filterMap_flatMap, List.filterMap_map] at perm
  exact List.perm_singleton.mp (perm.trans (.of_eq h))

end Nodes

/-! ## Readings -/

/-- A node is a reading of a rule from some tokens. -/
def ReadFrom (r : Rule) (n : Node) (taken : List Token) : Prop :=
  ∃ parts, n = .ofParts r parts false ∧
    Matches Standard.productions (Standard.production r) taken parts

/-- A node read from tokens is a node of the rule that read it. -/
theorem ReadFrom.rule_eq {r : Rule} {n : Node} {taken : List Token} (h : ReadFrom r n taken) :
    n.rule = r := by
  obtain ⟨parts, rfl, -⟩ := h
  rfl

/-- A reading of a rule that may be left out. -/
inductive ReadOptional (r : Rule) : Option Node → List Token → Prop where
  | absent : ReadOptional r none []
  | present {c taken} (read : ReadFrom r c taken) : ReadOptional r (some c) taken

/-- Readings of a rule, one after the other, each behind tokens with certain signs. -/
inductive ReadAll (r : Rule) (lead : List Sign) : List Node → List Token → Prop where
  | nil : ReadAll r lead [] []
  | cons {c cs before taken more} (led : before.map Token.sign = lead) (first : ReadFrom r c taken)
      (others : ReadAll r lead cs more) : ReadAll r lead (c :: cs) (before ++ (taken ++ more))

/-- One more reading at the front, where nothing stands before readings. -/
theorem ReadAll.cons_bare {r : Rule} {c : Node} {cs : List Node} {taken more : List Token}
    (first : ReadFrom r c taken) (others : ReadAll r [] cs more) :
    ReadAll r [] (c :: cs) (taken ++ more) :=
  have led : [].map Token.sign = [] := rfl
  .cons led first others

namespace Matches

variable {g : Productions} {p : Production} {items : List Production} {kind : TokenKind} {r : Rule}
  {arg : ConstArg} {taken : List Token} {parts : List Part}

/-! ## Items -/

/-- A demanded token is the one token taken, and it is filed under the demand. -/
theorem of_token (h : Matches g (.token kind) taken parts) :
    ∃ t, taken = [t] ∧ parts = tokenParts kind [t] ∧ t.meets kind = true ∧ t.Spelled := by
  cases h with
  | token met spelled => exact ⟨_, rfl, rfl, met, spelled⟩

/-- A choice matches what one of its alternatives matches. -/
theorem of_choice {alternatives : List (Gate × Production)}
    (h : Matches g (.choice alternatives) taken parts) :
    ∃ p ∈ alternatives.map (·.2), Matches g p taken parts := by
  cases h with
  | branch chosen inside => exact ⟨_, List.mem_map_of_mem chosen, inside⟩

/-- A call matches the tokens that a node of its rule is read from, and that node is its one
    part. -/
theorem of_call (h : Matches Standard.productions (.call r arg) taken parts) :
    ∃ c, parts = nodeParts r [c] ∧ ReadFrom r c taken := by
  cases h with
  | call body =>
    rw [Standard.productions, RuleTable.get_ofFn] at body
    exact ⟨_, rfl, _, rfl, body⟩

/-- A choice among rules. -/
theorem of_rules (rules : List Rule)
    (h : Matches Standard.productions (Standard.either (rules.map Standard.rule)) taken parts) :
    ∃ r ∈ rules, ∃ c, parts = nodeParts r [c] ∧ ReadFrom r c taken := by
  obtain ⟨p, hp, h⟩ := h.of_choice
  obtain ⟨r, hr, rfl⟩ : ∃ r ∈ rules, Standard.rule r = p := by simpa using hp
  exact ⟨r, hr, h.of_call⟩

/-- A list of nested readings. -/
theorem of_many (h : Matches Standard.productions (.many (.call r arg)) taken parts) :
    ∃ cs, parts = nodeParts r cs ∧ ReadAll r [] cs taken := by
  generalize hp : Production.many (.call r arg) = p at h
  induction h with
  | done => exact ⟨[], rfl, .nil⟩
  | again first others _ ih =>
    cases hp
    obtain ⟨c, rfl, read⟩ := first.of_call
    obtain ⟨cs, rfl, all⟩ := ih rfl
    exact ⟨c :: cs, rfl, .cons_bare read all⟩
  | _ => cases hp

/-- A list of nested readings that is not empty. -/
theorem of_atLeastOne (h : Matches Standard.productions (.atLeastOne (.call r arg)) taken parts) :
    ∃ c cs, parts = nodeParts r (c :: cs) ∧ ReadAll r [] (c :: cs) taken := by
  cases h with
  | once first others =>
    obtain ⟨c, rfl, read⟩ := first.of_call
    obtain ⟨cs, rfl, all⟩ := others.of_many
    exact ⟨c, cs, rfl, .cons_bare read all⟩

/-- A list of nested readings with a mark before each.  Marks and readings are filed apart, as many
    of the ones as of the others. -/
theorem of_marked {mark : Punctuator}
    (h : Matches Standard.productions (.many (.sequence [.token (.punctuator mark), .call r arg]))
      taken parts) :
    ∃ cs marks, ReadAll r [mark.sign] cs taken ∧ marks.length = cs.length ∧
      (∀ q, nodesUnder q parts = if r = q then cs else []) ∧
      tokensUnder (.punctuator mark) parts = marks ∧
      superfluousOfParts parts = cs.flatMap Node.superfluous := by
  generalize hp : Production.many _ = p at h
  induction h with
  | done => exact ⟨[], [], .nil, rfl, by simp, rfl, rfl⟩
  | again first others _ ih =>
    cases hp
    obtain ⟨cs, marks, all, count, nodes, tokens, spare⟩ := ih rfl
    cases first with
    | cons marked first =>
      cases first with
      | cons called nothing =>
        cases nothing
        obtain ⟨t, rfl, rfl, met, spelled⟩ := marked.of_token
        obtain ⟨c, rfl, read⟩ := called.of_call
        -- the mark stands before its reading in the text, but under another label in the tree
        have led : [t].map Token.sign = [mark.sign] := by simp [spelled.sign_of_mark met]
        refine ⟨c :: cs, t :: marks, ?_, by simp [count], fun q => ?_, ?_, ?_⟩
        · simpa using ReadAll.cons led read all
        · by_cases h : r = q <;> simp [nodes, h]
        · simp [tokens]
        · simp [spare]
  | _ => cases hp

/-! ## Labels -/

/-- A production lays out readings of the rules that it calls only. -/
theorem nodesUnder_eq_nil {q : Rule} (h : Matches g p taken parts) (other : q ∉ p.calls) :
    nodesUnder q parts = [] := by
  -- induction on the match; what two matches in a row lay out is laid out by one of them
  induction h with
  | token => simp [nodesUnder]
  | @call rule =>
    have ne : rule ≠ q := fun same => other (same ▸ List.mem_singleton_self _)
    simp [nodesUnder, ne]
  | nil => rfl
  | skip => rfl
  | done => rfl
  | enter _ ih => exact ih other
  | branch chosen _ ih =>
    exact ih fun h => other (Production.calls_subset_of_mem chosen h)
  | cons _ _ ih₁ ih₂ =>
    obtain ⟨first, others⟩ := not_or.mp (mt List.mem_append.mpr other)
    rw [nodesUnder_append, ih₁ first, ih₂ others]
    rfl
  | again _ _ ih₁ ih₂ =>
    rw [nodesUnder_append, ih₁ other, ih₂ other]
    rfl
  | once _ _ ih₁ ih₂ =>
    rw [nodesUnder_append, ih₁ other, ih₂ other]
    rfl

/-! ## Rows -/

/-- An empty row takes nothing and files nothing. -/
theorem row_nil (h : Matches g (.sequence []) taken parts) : taken = [] ∧ parts = [] := by
  cases h
  exact ⟨rfl, rfl⟩

/-- A row matches what its first production matches, and the others behind it. -/
theorem row_cons (h : Matches g (.sequence (p :: items)) taken parts) :
    ∃ first more here others, taken = first ++ more ∧ parts = here ++ others ∧
      Matches g p first here ∧ Matches g (.sequence items) more others := by
  cases h with
  | cons first others => exact ⟨_, _, _, _, rfl, rfl, first, others⟩

/-- A row that begins with a demand takes its token and goes on. -/
theorem row_token (h : Matches g (.sequence (.token kind :: items)) taken parts) :
    ∃ t more others, taken = t :: more ∧ parts = tokenParts kind [t] ++ others ∧
      t.meets kind = true ∧ t.Spelled ∧ Matches g (.sequence items) more others := by
  obtain ⟨_, more, _, others, rfl, rfl, first, rest⟩ := h.row_cons
  obtain ⟨t, rfl, rfl, met, spelled⟩ := first.of_token
  exact ⟨t, more, others, rfl, rfl, met, spelled, rest⟩

/-- A row that begins with an optional token takes one that meets the demand or none. -/
theorem row_optionalToken
    (h : Matches g (.sequence (.optional (.token kind) :: items)) taken parts) :
    ∃ (t? : Option Token) (more : List Token) (others : List Part), taken = t?.toList ++ more ∧
      parts = tokenParts kind t?.toList ++ others ∧
      (∀ t ∈ t?, t.meets kind = true ∧ t.Spelled) ∧ Matches g (.sequence items) more others := by
  obtain ⟨_, more, _, others, rfl, rfl, first, rest⟩ := h.row_cons
  cases first with
  | skip => exact ⟨none, more, others, rfl, rfl, nofun, rest⟩
  | enter inside =>
    obtain ⟨t, rfl, rfl, met, spelled⟩ := inside.of_token
    refine ⟨some t, more, others, rfl, rfl, fun u hu => ?_, rest⟩
    cases hu
    exact ⟨met, spelled⟩

/-- A row that begins with a call reads a node of its rule and goes on. -/
theorem row_call (h : Matches Standard.productions (.sequence (.call r arg :: items)) taken parts) :
    ∃ c first more others, taken = first ++ more ∧ parts = nodeParts r [c] ++ others ∧
      ReadFrom r c first ∧ Matches Standard.productions (.sequence items) more others := by
  obtain ⟨first, more, _, others, rfl, rfl, called, rest⟩ := h.row_cons
  obtain ⟨c, rfl, read⟩ := called.of_call
  exact ⟨c, first, more, others, rfl, rfl, read, rest⟩

/-- A row that begins with an optional call reads one node of its rule or none. -/
theorem row_optional
    (h : Matches Standard.productions (.sequence (.optional (.call r arg) :: items)) taken parts) :
    ∃ (c? : Option Node) (first more : List Token) (others : List Part), taken = first ++ more ∧
      parts = nodeParts r c?.toList ++ others ∧ ReadOptional r c? first ∧
      Matches Standard.productions (.sequence items) more others := by
  obtain ⟨first, more, _, others, rfl, rfl, optional, rest⟩ := h.row_cons
  cases optional with
  | skip => exact ⟨none, [], more, others, rfl, rfl, .absent, rest⟩
  | enter inside =>
    obtain ⟨c, rfl, read⟩ := inside.of_call
    exact ⟨some c, first, more, others, rfl, rfl, .present read, rest⟩

/-- A row that begins with a repetition reads any number of nodes of its rule. -/
theorem row_many
    (h : Matches Standard.productions (.sequence (.many (.call r arg) :: items)) taken parts) :
    ∃ cs first more others, taken = first ++ more ∧ parts = nodeParts r cs ++ others ∧
      ReadAll r [] cs first ∧ Matches Standard.productions (.sequence items) more others := by
  obtain ⟨first, more, _, others, rfl, rfl, list, rest⟩ := h.row_cons
  obtain ⟨cs, rfl, all⟩ := list.of_many
  exact ⟨cs, first, more, others, rfl, rfl, all, rest⟩

/-- A row that begins with a repetition of at least one reads a node of its rule and any number of
    further ones. -/
theorem row_atLeastOne
    (h : Matches Standard.productions (.sequence (.atLeastOne (.call r arg) :: items)) taken parts) :
    ∃ c cs first more others, taken = first ++ more ∧ parts = nodeParts r (c :: cs) ++ others ∧
      ReadAll r [] (c :: cs) first ∧
      Matches Standard.productions (.sequence items) more others := by
  obtain ⟨first, more, _, others, rfl, rfl, list, rest⟩ := h.row_cons
  obtain ⟨c, cs, rfl, all⟩ := list.of_atLeastOne
  exact ⟨c, cs, first, more, others, rfl, rfl, all, rest⟩

end Matches

end GraphQL
