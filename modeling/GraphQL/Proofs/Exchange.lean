/-
  Words are reserved only where the grammar asks for them.

  A derivation looks at a token in three places: where the token meets the demand under which it is
  filed, where the tokens behind a match are, and where a rule asks whether it may stand before it.
  So a token can be exchanged for any other that meets the same demand and is alike to what comes
  before it (`Indifferent`): the derivation stays as it is, and its tree differs in that one place
  (`Derives.exchange`).

  In a document no rule asks more than whether a brace stands behind it, and no word is a brace.
  Since every derivation of a document is found again, so is the one with the other word in it, and
  nothing that lookahead sees can divert it (`word_exchangeable`).
-/
import GraphQL.Proofs.Clauses
import GraphQL.Proofs.Relocation
import GraphQL.Proofs.Spelling

namespace GraphQL

/-! ## One place of a list -/

/-- Two lists that differ in one place, where they hold related things. -/
inductive OneApart {α : Type} (r : α → α → Prop) : List α → List α → Prop where
  | intro (before : List α) {a b : α} (related : r a b) (after : List α) :
      OneApart r (before ++ a :: after) (before ++ b :: after)

namespace OneApart

variable {α : Type} {r : α → α → Prop}

/-- Lists of one thing differ in that one. -/
theorem of_singleton {a : α} {ys : List α} (h : OneApart r [a] ys) : ∃ b, ys = [b] ∧ r a b := by
  generalize hxs : [a] = xs at h
  cases h with
  | intro before related after =>
    obtain ⟨rfl, rfl, rfl⟩ := by simpa [List.cons_eq_append_iff] using hxs
    exact ⟨_, rfl, related⟩

theorem not_nil {ys : List α} : ¬ OneApart r [] ys := by
  intro h
  generalize hxs : [] = xs at h
  cases h
  exact absurd hxs.symm (by simp)

/-- Of two lists one after the other, one or the other has the place. -/
theorem of_append {xs ys zs : List α} (h : OneApart r (xs ++ ys) zs) :
    (∃ xs', OneApart r xs xs' ∧ zs = xs' ++ ys) ∨ (∃ ys', OneApart r ys ys' ∧ zs = xs ++ ys') := by
  generalize hl : xs ++ ys = l at h
  obtain ⟨before, related, after⟩ := h
  rcases List.append_eq_append_iff.mp hl with ⟨mid, rfl, hys⟩ | ⟨mid, hxs, hafter⟩
  · subst hys
    exact .inr ⟨_, .intro mid related after, List.append_assoc ..⟩
  · cases mid with
    | nil =>
      obtain rfl : xs = before := by simpa using hxs
      obtain rfl : _ = ys := hafter
      exact .inr ⟨_, .intro [] related after, rfl⟩
    | cons x mid =>
      obtain ⟨rfl, rfl⟩ := List.cons.inj hafter
      subst hxs
      exact .inl ⟨_, .intro before related mid, by simp⟩

end OneApart

/-! ## One token of a tree -/

/-- Two trees that differ in one token, which stands under a label. -/
inductive Node.Exchanged (label : Label) (t t' : Token) : Node → Node → Prop where
  /-- The token stands in the root. -/
  | inRoot {rule pre before after post span recovered} :
      Exchanged label t t'
        ⟨rule, pre ++ (label, before ++ .token t :: after) :: post, span, recovered⟩
        ⟨rule, pre ++ (label, before ++ .token t' :: after) :: post, span, recovered⟩
  /-- The token stands below a child. -/
  | inChild {rule pre under before after post span recovered child child'}
      (inside : Exchanged label t t' child child') :
      Exchanged label t t'
        ⟨rule, pre ++ (under, before ++ .node child :: after) :: post, span, recovered⟩
        ⟨rule, pre ++ (under, before ++ .node child' :: after) :: post, span, recovered⟩

/-- Two parts that differ in one token, which stands under a label. -/
inductive Part.Exchanged (label : Label) (t t' : Token) : Part → Part → Prop where
  | token : Exchanged label t t' (label, .token t) (label, .token t')
  | node {under : Label} {child child' : Node} (inside : child.Exchanged label t t' child') :
      Exchanged label t t' (under, .node child) (under, .node child')

section Trees

variable {label : Label} {t t' : Token}

theorem Node.Exchanged.span_eq {n n' : Node} (h : n.Exchanged label t t' n') : n'.span = n.span := by
  cases h <;> rfl

/-- A token that is filed in a tree can be exchanged there. -/
theorem Node.exists_exchanged {demand : TokenKind} {tree m : Node} (within : m.Within tree)
    (filed : t ∈ m.tokens demand) (t' : Token) :
    ∃ tree', tree.Exchanged (.token demand) t t' tree' := by
  induction within with
  | root =>
    -- the token is one of the node itself
    obtain ⟨rule, groups, span, recovered⟩ := m
    obtain ⟨e, he, htoken⟩ := List.mem_filterMap.mp filed
    obtain rfl : e = .token t := by cases e <;> cases htoken; rfl
    unfold Node.elements at he
    split at he
    · rename_i under es found
      obtain rfl : under = .token demand := by simpa using List.find?_some found
      obtain ⟨pre, post, rfl⟩ := List.append_of_mem (List.mem_of_find?_eq_some found)
      obtain ⟨before, after, rfl⟩ := List.append_of_mem he
      exact ⟨_, .inRoot⟩
    · cases he
  | @step c n child _ ih =>
    -- the token is further below, in one of the children
    obtain ⟨c', inside⟩ := ih
    obtain ⟨rule, groups, span, recovered⟩ := n
    obtain ⟨⟨under, es⟩, hgroup, hc⟩ := List.mem_flatMap.mp child
    obtain ⟨pre, post, rfl⟩ := List.append_of_mem hgroup
    obtain ⟨before, after, rfl⟩ := List.append_of_mem (Node.mem_filterMap_node?_iff.mp hc)
    exact ⟨_, .inChild inside⟩

/-- A thing in a group is one of the grouped parts, and another in its place is in its place in the
    group. -/
theorem Node.exists_split_of_group {α : Type} {parts : List (Label × α)}
    {pre post : List (Label × List α)} {before after : List α} {a : α}
    (h : group parts = pre ++ (label, before ++ a :: after) :: post) :
    ∃ front back, parts = front ++ (label, a) :: back ∧
      ∀ b, group (front ++ (label, b) :: back) = pre ++ (label, before ++ b :: after) :: post := by
  have once := nodup_distinct (parts.map (·.1))
  unfold group at h
  -- the labels before and behind that of the group, and the parts before and behind the thing
  obtain ⟨labels, labels', hlabels, rfl, h₁⟩ := List.map_eq_append_iff.mp h
  obtain ⟨l, labels', rfl, h₂, rfl⟩ := List.map_eq_cons_iff.mp h₁
  obtain ⟨rfl, h₃⟩ := Prod.mk.inj h₂
  obtain ⟨front, back, rfl, rfl, h₄⟩ := List.filterMap_eq_append_iff.mp h₃
  obtain ⟨skipped, ⟨l', a'⟩, back, rfl, others, ha, rfl⟩ := List.filterMap_eq_cons_iff.mp h₄
  obtain ⟨rfl, rfl⟩ : l' = l ∧ a' = a := by
    by_cases same : l' = l
    · exact ⟨same, by simpa [same] using ha⟩
    · simp [same] at ha
  refine ⟨front ++ skipped, back, by simp, fun b => ?_⟩
  have sameLabels : (front ++ skipped ++ (l', b) :: back).map (·.1)
      = (front ++ (skipped ++ (l', a') :: back)).map (·.1) := by simp
  have skips : skipped.filterMap (fun p => if p.1 = l' then some p.2 else none) = [] :=
    List.filterMap_eq_nil_iff.mpr others
  rw [hlabels, List.nodup_append, List.nodup_cons] at once
  obtain ⟨-, ⟨fresh', -⟩, fresh⟩ := once
  have away : ∀ k, k ≠ l' →
      (front ++ skipped ++ (l', b) :: back).filterMap (fun p => if p.1 = k then some p.2 else none)
        = (front ++ (skipped ++ (l', a') :: back)).filterMap
          (fun p => if p.1 = k then some p.2 else none) := by
    intro k hk
    simp [hk.symm]
  -- the group of the thing has the other one in its place, and other groups do not see it
  unfold group
  rw [sameLabels, hlabels, List.map_append, List.map_cons]
  congr 1
  · refine List.map_congr_left fun k hk => ?_
    rw [away k (fresh k hk l' List.mem_cons_self)]
  · congr 1
    · simp [skips]
    · refine List.map_congr_left fun k hk => ?_
      rw [away k fun same => fresh' (same ▸ hk)]

/-- Parts with an exchanged token cover the same bytes, if the tokens do. -/
theorem OneApart.cover_eq {parts parts' : List Part}
    (h : OneApart (Part.Exchanged label t t') parts parts') (bytes : t'.bytes = t.bytes) :
    ByteSpan.cover (parts'.map fun p => p.2.bytes) = ByteSpan.cover (parts.map fun p => p.2.bytes) := by
  obtain ⟨before, related, after⟩ := h
  rw [List.map_append, List.map_append, List.map_cons, List.map_cons]
  cases related with
  | token => rw [show (Element.token t' : Element Node).bytes = t.bytes from bytes]; rfl
  | node inside => rw [show (Element.node _ : Element Node).bytes = _ from inside.span_eq]; rfl

/-- Parts with an exchanged token stand under the same labels. -/
theorem OneApart.labels_eq {parts parts' : List Part}
    (h : OneApart (Part.Exchanged label t t') parts parts') :
    parts'.map (·.1) = parts.map (·.1) := by
  obtain ⟨before, related, after⟩ := h
  cases related <;> simp

/-- A token that is exchanged in the node of a reading is exchanged in its parts. -/
theorem Node.Exchanged.exists_parts {rule : Rule} {parts : List Part} {recovered : Bool}
    {n' : Node} (bytes : t'.bytes = t.bytes)
    (h : (Node.ofParts rule parts recovered).Exchanged label t t' n') :
    ∃ parts', OneApart (Part.Exchanged label t t') parts parts' ∧
      n' = .ofParts rule parts' recovered := by
  generalize hn : Node.ofParts rule parts recovered = n at h
  cases h with
  | inRoot =>
    -- the part that is exchanged is the token
    obtain ⟨rfl, hgroup, rfl, rfl⟩ := Node.mk.inj hn
    obtain ⟨front, back, rfl, again⟩ := exists_split_of_group hgroup
    have apart : OneApart (Part.Exchanged label t t') _ _ := .intro front .token back
    refine ⟨_, apart, ?_⟩
    rw [Node.ofParts, again, apart.cover_eq bytes]
  | @inChild _ _ under _ _ _ _ _ _ _ inside =>
    -- the part that is exchanged is a node
    obtain ⟨rfl, hgroup, rfl, rfl⟩ := Node.mk.inj hn
    obtain ⟨front, back, rfl, again⟩ := exists_split_of_group hgroup
    have related : Part.Exchanged label t t' (under, .node _) (under, .node _) := .node inside
    have apart : OneApart (Part.Exchanged label t t') _ _ := .intro front related back
    refine ⟨_, apart, ?_⟩
    rw [Node.ofParts, again, apart.cover_eq bytes]

end Trees

/-! ## One token of a derivation -/

section Derivations

variable {g : Productions} {allowed : Rule → List Part → List Token → Prop} {n : Nat}
  {constant : Bool} {p q r : Production} {tokens mid rest : List Token} {parts more : List Part}

/-- Whether what is allowed does not tell two tokens apart. -/
structure Indifferent (allowed : Rule → List Part → List Token → Prop) (t t' : Token) : Prop where
  /-- Rules are asked for the labels of their parts only. -/
  labels : ∀ {rule parts parts' rest}, parts'.map (·.1) = parts.map (·.1) →
    allowed rule parts rest → allowed rule parts' rest
  /-- A rule that may stand before the one may stand before the other. -/
  ahead : ∀ rest, AllowedAlike allowed (t :: rest) (t' :: rest)

variable {label : Label} {t t' : Token}

theorem Indifferent.behind (indifferent : Indifferent allowed t t') (front rest : List Token) :
    AllowedAlike allowed (front ++ t :: rest) (front ++ t' :: rest) := by
  intro rule parts front' fits
  rw [← List.append_assoc] at fits ⊢
  exact indifferent.ahead rest rule parts _ fits

/-- A match that stays one when a token is exchanged in its parts. -/
def Derives.Exchangeable (g : Productions) (allowed : Rule → List Part → List Token → Prop)
    (n : Nat) (constant : Bool) (p : Production) (label : Label) (t t' : Token)
    (tokens : List Token) (parts : List Part) (rest : List Token) : Prop :=
  ∀ parts', OneApart (Part.Exchanged label t t') parts parts' →
    ∃ before after, tokens = before ++ t :: (after ++ rest) ∧
      Derives g allowed n constant p (before ++ t' :: (after ++ rest)) parts' rest

/-- In two matches one after the other, the token is exchanged in one of them: in the second the
    first is moved, and behind the first the second stays. -/
theorem Derives.Exchangeable.append (indifferent : Indifferent allowed t t')
    (join : ∀ {tokens mid rest parts more}, Derives g allowed n constant p tokens parts mid →
      Derives g allowed n constant q mid more rest →
      Derives g allowed n constant r tokens (parts ++ more) rest)
    (first : Derives g allowed n constant p tokens parts mid)
    (second : Derives g allowed n constant q mid more rest)
    (h₁ : Exchangeable g allowed n constant p label t t' tokens parts mid)
    (h₂ : Exchangeable g allowed n constant q label t t' mid more rest) :
    Exchangeable g allowed n constant r label t t' tokens (parts ++ more) rest := by
  intro parts' apart
  rcases apart.of_append with ⟨parts', inFirst, rfl⟩ | ⟨more', inSecond, rfl⟩
  · -- the token is in the first part, and what it derives ends where it did
    obtain ⟨before, after, rfl, first'⟩ := h₁ parts' inFirst
    obtain ⟨taken, rfl, -⟩ := second.movable
    exact ⟨before, after ++ taken, by simp, by simpa using join first' second⟩
  · -- the token is in the second part, and the first one is moved in front of what was exchanged
    obtain ⟨before, after, rfl, second'⟩ := h₂ more' inSecond
    obtain ⟨taken, rfl, move⟩ := first.movable
    have first' := move _ (indifferent.behind before (after ++ rest))
    exact ⟨taken ++ before, after, by simp, by simpa using join first' second'⟩

/-- Where two tokens meet the demand of a label, and nothing else tells them apart, one can stand in
    the place of the other.  Induction on the derivation, with the exchange in its parts. -/
theorem Derives.exchange {demand : TokenKind} (indifferent : Indifferent allowed t t')
    (met : t'.meets demand = true) (bytes : t'.bytes = t.bytes)
    (h : Derives g allowed n constant p tokens parts rest) :
    Derives.Exchangeable g allowed n constant p (.token demand) t t' tokens parts rest := by
  induction h with
  | token _ =>
    intro parts' apart
    obtain ⟨_, rfl, related⟩ := apart.of_singleton
    cases related
    exact ⟨[], [], rfl, .token met⟩
  | @call _ _ rule _ _ parts _ _ fits ih =>
    intro parts' apart
    obtain ⟨_, rfl, related⟩ := apart.of_singleton
    -- the token stands below the node that is filed, so it is exchanged in the parts of its body
    cases related with
    | node inside =>
      obtain ⟨inner, within, rfl⟩ := inside.exists_parts bytes
      obtain ⟨before, after, ht, body⟩ := ih inner within
      exact ⟨before, after, ht, .call body (indifferent.labels within.labels_eq fits)⟩
  | nil => exact fun _ apart => (OneApart.not_nil apart).elim
  | skip => exact fun _ apart => (OneApart.not_nil apart).elim
  | done => exact fun _ apart => (OneApart.not_nil apart).elim
  | enter _ ih =>
    intro parts' apart
    obtain ⟨before, after, ht, inside⟩ := ih parts' apart
    exact ⟨before, after, ht, .enter inside⟩
  | branch chosen opens _ ih =>
    intro parts' apart
    obtain ⟨before, after, ht, inside⟩ := ih parts' apart
    exact ⟨before, after, ht, .branch chosen opens inside⟩
  | cons first others ih₁ ih₂ => exact .append indifferent .cons first others ih₁ ih₂
  | again first others ih₁ ih₂ => exact .append indifferent .again first others ih₁ ih₂
  | once first others ih₁ ih₂ => exact .append indifferent .once first others ih₁ ih₂

end Derivations

/-! ## Words in documents -/

/-- The token with another word in its place. -/
def Token.withWord (t : Token) (word : String) : Token :=
  { t with kind := .ofWord word, text := word }

/-- That no clause is left out before a brace does not depend on words. -/
theorem Standard.indifferent_withWord (t : Token) (word : String) :
    Indifferent NoDangling t (t.withWord word) where
  labels same fits clause hclause unused := fits clause hclause (same ▸ unused)
  ahead rest rule parts front fits clause hclause unused := by
    intro u next
    cases front with
    | nil =>
      obtain rfl : t.withWord word = u := by simpa using next
      exact ofWord_ne_punctuator word .leftBrace
    | cons x front => exact fits clause hclause unused u next

/-- Words are reserved only where the grammar asks for them: in a document without mistakes, a token
    that is filed under a category can be exchanged for any word of that category.  The parse with
    the other word records nothing either, and its tree is the old one with the token exchanged. -/
theorem word_exchangeable {g : Grammar} (standard : Standard.grammar? = .ok g)
    {tokens : List Token} {tree : Node} (clean : g.parse .document tokens = ⟨some tree, []⟩)
    {category : Category} {word : String}
    (fits : (TokenKind.ofWord word).satisfies (.category category) = true) (t : Token) :
    (∀ n : Node, n.Within tree → t ∈ n.tokens (.category category) →
      ∃ tree', tree.Exchanged (.token (.category category)) t (t.withWord word) tree') ∧
    ∀ tree', tree.Exchanged (.token (.category category)) t (t.withWord word) tree' →
      ∃ before after, tokens = before ++ t :: after ∧
        g.parse .document (before ++ t.withWord word :: after) = ⟨some tree', []⟩ := by
  obtain rfl : Standard.grammar = g := Except.ok.inj (Standard.grammar?_eq.symm.trans standard)
  refine ⟨fun n within filed => Node.exists_exchanged within filed _, fun tree' exchanged => ?_⟩
  have derives := Standard.exists_derivation clean
  obtain ⟨before, after, rfl, derives'⟩ :=
    derives.exchange (Standard.indifferent_withWord t word) fits rfl _ (.intro [] (.node exchanged) [])
  have last : TokenKind.endOfInput ∈ Standard.followTable.all .document := List.mem_singleton_self _
  refine ⟨before, after, by simp, ?_⟩
  have again := parse_of_derives Standard.predictive last derives'
  rwa [List.append_nil] at again

/-- The keyword in `aliasTokens`, which is the name of a field. -/
def aliasedToken : Token := { kind := .keyword (.word .on), text := "on" }

set_option maxRecDepth 100000 in
/-- A field named `on` can be renamed to `query`. -/
theorem word_exchangeable_alias :
    ∃ tree tree' : Node, Standard.grammar.parse .document aliasTokens = ⟨some tree, []⟩ ∧
      (TokenKind.ofWord "query").satisfies (.category .name) = true ∧
      tree.Exchanged (.token (.category .name)) aliasedToken (aliasedToken.withWord "query") tree' ∧
      ∃ before after, aliasTokens = before ++ aliasedToken :: after ∧
        Standard.grammar.parse .document (before ++ aliasedToken.withWord "query" :: after)
          = ⟨some tree', []⟩ := by
  have fits : (TokenKind.ofWord "query").satisfies (.category .name) = true := by decide +kernel
  obtain ⟨none, filed⟩ : (Standard.grammar.parse .document aliasTokens).errors = [] ∧
      ((Standard.grammar.parse .document aliasTokens).tree.bind fun tree =>
        [.definition, .executableDefinition, .operationDefinition, .selectionSet, .selection,
          .field].foldlM Node.node? tree).any
            (fun m => (m.tokens (.category .name)).contains aliasedToken) = true := by
    decide +kernel
  obtain ⟨m, hm, filed⟩ := (Option.any_eq_true _ _).mp filed
  obtain ⟨tree, htree, path⟩ := Option.bind_eq_some_iff.mp hm
  have clean := Grammar.Parse.eq_of_clean htree none
  obtain ⟨exists_exchanged, exchanged_parses⟩ :=
    word_exchangeable Standard.grammar?_eq clean fits aliasedToken
  obtain ⟨tree', exchanged⟩ :=
    exists_exchanged m (Node.within_of_path _ path) (by simpa using filed)
  exact ⟨tree, tree', clean, fits, exchanged, exchanged_parses tree' exchanged⟩

end GraphQL
