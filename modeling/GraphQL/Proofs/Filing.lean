/-
  Whatever stands under a demand in a tree has met it.

  A run files a token in three ways: it takes the next one, it leaves one out and takes the one behind
  it, or it puts one in.  The first two look at the token and find that it meets the demand, and a
  token that is put in shows nothing.  So recovery, whatever it leaves out or makes up, never gets a
  word of the text into a place whose demand rules the word out (`Run.files`).

  Two categories of names do rule words out, although each of these words is spelled like a name.  The
  other half of the argument is about texts: a word that is spelled so always has the kind of that
  keyword (`Token.Spelled.spares`), and so cannot pass for another name.
-/
import GraphQL.Proofs.Constancy
import GraphQL.Proofs.Progress
import GraphQL.Proofs.Spelling

namespace GraphQL

/-! ## Words that are ruled out -/

namespace Category

/-- The words of the grammar that are spelled like names, but are ruled out by a category of
    names. -/
def excluded : Category → List Word
  | .nameButOn => [.on]
  | .nameButLiteral => [.trueWord, .falseWord, .nullWord]
  | .name => []
  | .keyword => []
  | .string => []

/-- Whether a text is none of the words that a category rules out. -/
def Spares (c : Category) (text : String) : Prop := ∀ w ∈ c.excluded, text ≠ w.text

/-- No word is without letters. -/
theorem spares_empty (c : Category) : c.Spares "" := by
  intro w _
  cases w <;> decide

/-- A word that a category rules out does not meet it. -/
theorem not_satisfies_of_mem_excluded {c : Category} {w : Word} (ruledOut : w ∈ c.excluded) :
    (TokenKind.keyword (.word w)).satisfies (.category c) = false := by
  cases c with
  | name => cases ruledOut
  | keyword => cases ruledOut
  | string => cases ruledOut
  | nameButOn =>
    obtain rfl := List.mem_singleton.mp ruledOut
    rfl
  | nameButLiteral =>
    obtain rfl | rfl | rfl : w = .trueWord ∨ w = .falseWord ∨ w = .nullWord := by
      simpa [excluded] using ruledOut
    all_goals rfl

end Category

/-- The kind of a word of the grammar is that of its keyword. -/
theorem TokenKind.ofWord_text (w : Word) : ofWord w.text = .keyword (.word w) := by
  cases w <;> decide

/-- A token of a text that meets a category is none of the words that the category rules out: such a
    word has the kind of its keyword, and that kind does not meet the category. -/
theorem Token.Spelled.spares {t : Token} (h : t.Spelled) {c : Category}
    (met : t.meets (.category c) = true) : c.Spares t.text := by
  intro w ruledOut same
  have names : c ≠ .string := by
    rintro rfl
    cases ruledOut
  have kind : t.kind = .ofWord t.text := congrArg Prod.fst (h.sign_of_name met names)
  rw [same, TokenKind.ofWord_text] at kind
  have unmet : t.meets (.category c) = false := by
    rw [Token.meets, kind]
    exact Category.not_satisfies_of_mem_excluded ruledOut
  rw [unmet] at met
  cases met

/-! ## What stands under demands -/

/-- Whether a token is one of some tokens and meets a demand, or else shows nothing. -/
def Token.MetAmong (tokens : List Token) (demand : TokenKind) (t : Token) : Prop :=
  (t ∈ tokens ∧ t.meets demand = true) ∨ t.text = ""

/-- At every level of a tree, what stands under a demand is one of some tokens and meets the demand,
    or else shows nothing. -/
def Node.MetAmong (tokens : List Token) (n : Node) : Prop :=
  ∀ m : Node, m.Within n → ∀ demand, ∀ t ∈ m.tokens demand, t.MetAmong tokens demand

/-- The same of the parts of a reading that is not yet a node. -/
structure Filed (tokens : List Token) (parts : List Part) : Prop where
  token : ∀ demand t, (.token demand, .token t) ∈ parts → t.MetAmong tokens demand
  node : ∀ label n, (label, .node n) ∈ parts → n.MetAmong tokens

namespace Filed

variable {tokens : List Token} {parts more : List Part}

theorem nil : Filed tokens [] where
  token demand t hp := by cases hp
  node label n hp := by cases hp

theorem append (h : Filed tokens parts) (h' : Filed tokens more) : Filed tokens (parts ++ more) where
  token demand t hp := (List.mem_append.mp hp).elim (h.token demand t) (h'.token demand t)
  node label n hp := (List.mem_append.mp hp).elim (h.node label n) (h'.node label n)

/-- A token that met its demand is filed well. -/
theorem ofToken {demand : TokenKind} {t : Token} (met : t.MetAmong tokens demand) :
    Filed tokens [(.token demand, .token t)] where
  token demand' t' hp := by
    cases List.mem_singleton.mp hp
    exact met
  node label n hp := by cases List.mem_singleton.mp hp

/-- A node whose tokens met their demands is filed well. -/
theorem ofNode {label : Label} {n : Node} (below : n.MetAmong tokens) :
    Filed tokens [(label, .node n)] where
  token demand t hp := by cases List.mem_singleton.mp hp
  node label' n' hp := by
    cases List.mem_singleton.mp hp
    exact below

/-- What holds of the parts of a reading holds at every level of its node. -/
theorem ofParts (h : Filed tokens parts) (rule : Rule) (recovered : Bool) :
    (Node.ofParts rule parts recovered).MetAmong tokens := by
  intro m within demand t ht
  cases within with
  | root =>
    obtain ⟨e, he, same⟩ := List.mem_filterMap.mp ht
    cases e with
    | node c => cases same
    | token u =>
      cases same
      exact h.token demand t (Node.mem_elements_ofParts.mp he)
  | step child within =>
    obtain ⟨label, hp⟩ := Node.mem_children_ofParts.mp child
    exact h.node label _ hp m within demand t ht

end Filed

/-! ## What a run files -/

section Running

variable {g : Grammar} {n : Nat} {c : Context} {plan : Plan} {s s' : State} {ending : Ending}
  {tokens : List Token}

/-- The next token is one of those that are left, or it stands for the end of the text. -/
theorem Context.metAmong_next {rest : List Token} {demand : TokenKind} (among : rest ⊆ tokens)
    (silent : c.endToken.text = "") (met : (c.next rest).meets demand = true) :
    (c.next rest).MetAmong tokens demand := by
  cases rest with
  | nil => exact .inr silent
  | cons t rest => exact .inl ⟨among List.mem_cons_self, met⟩

/-- A rule that is left files one node, of what its body has filed. -/
theorem Filed.close {inner : State} {parts : List Part} (h : Filed tokens parts)
    (tree : c.mode = .tree) (hparts : inner.parts.toList = [] ++ parts) (rule : Rule)
    (recovered : Bool) (rest : List Token) :
    ∃ filed, (c.close rule recovered s { inner with rest }).parts.toList
        = s.parts.toList ++ filed ∧
      Filed tokens filed := by
  refine ⟨[(.rule rule, .node (.ofParts rule parts recovered))], ?_,
    .ofNode (h.ofParts rule recovered)⟩
  rw [parts_close, tree, hparts, List.nil_append]
  rfl

/-- Whatever a run files under a demand has met it or shows nothing.  Induction on the run; the
    tokens that are left are always some of those that there were. -/
theorem Run.files (h : Run g n c plan s s' ending) (tree : c.mode = .tree)
    (silent : c.endToken.text = "") (among : s.rest ⊆ tokens) :
    ∃ parts, s'.parts.toList = s.parts.toList ++ parts ∧ Filed tokens parts := by
  have nothing : ∀ {s s' : State}, s'.parts = s.parts →
      ∃ parts, s'.parts.toList = s.parts.toList ++ parts ∧ Filed tokens parts := by
    intro s s' same
    exact ⟨[], by rw [same, List.append_nil], .nil⟩
  have andThen : ∀ {s mid s' : State},
      (∃ parts, mid.parts.toList = s.parts.toList ++ parts ∧ Filed tokens parts) →
      (∃ parts, s'.parts.toList = mid.parts.toList ++ parts ∧ Filed tokens parts) →
      ∃ parts, s'.parts.toList = s.parts.toList ++ parts ∧ Filed tokens parts := by
    rintro s mid s' ⟨parts, filed, first⟩ ⟨more, filed', others⟩
    exact ⟨parts ++ more, by rw [filed', filed, List.append_assoc], first.append others⟩
  induction h with
  | @take n c kind follow s met =>
    refine ⟨_, ?_, .ofToken (Context.metAmong_next among silent met)⟩
    rw [parts_take, tree]
    rfl
  | @insert n c kind follow s =>
    -- it stands for the kind that was asked for, but has no text
    refine ⟨[(.token kind, .token (.missing kind (c.next s.rest)))], ?_, .ofToken (.inr rfl)⟩
    rw [parts_file, tree]
    rfl
  | @delete n c kind follow s _ met =>
    have others : s.rest.tail ⊆ tokens := fun t ht => among (List.mem_of_mem_tail ht)
    refine ⟨_, ?_, .ofToken (Context.metAmong_next others silent met)⟩
    rw [parts_take, tree]
    rfl
  | miss => exact nothing rfl
  | tooDeep => exact nothing rfl
  | noRound => exact nothing rfl
  | noBranch => exact nothing rfl
  | nil => exact nothing rfl
  | skip => exact nothing rfl
  | close _ ih =>
    obtain ⟨parts, hparts, filed⟩ := ih tree silent among
    exact filed.close tree hparts _ false _
  | resync _ _ ih =>
    obtain ⟨parts, hparts, filed⟩ := ih tree silent among
    exact filed.close tree hparts _ true _
  | unwind _ _ ih =>
    obtain ⟨parts, hparts, filed⟩ := ih tree silent among
    exact filed.close tree hparts _ true _
  | abort _ ih =>
    obtain ⟨parts, hparts, filed⟩ := ih tree silent among
    exact filed.close tree hparts _ true _
  | cons first _ ih₁ ih₂ =>
    exact andThen (ih₁ tree silent among)
      (ih₂ tree silent fun t ht => among (first.suffix.subset ht))
  | cut _ _ ih => exact ih tree silent among
  | enter _ _ ih => exact ih tree silent among
  | round _ first _ _ ih₁ ih₂ =>
    exact andThen (ih₁ tree silent among)
      (ih₂ tree silent fun t ht => among (first.suffix.subset ht))
  | idle _ _ _ ih => exact ih tree silent among
  | broken _ _ _ ih => exact ih tree silent among
  | leave _ recovery => exact nothing (parts_of_recover recovery)
  | resume _ recovery _ ih =>
    -- recovery leaves tokens out and files none
    have further := (suffix_of_recover recovery).subset
    exact andThen (nothing (parts_of_recover recovery))
      (ih tree silent fun t ht => among (further ht))
  | branch _ _ _ _ ih => exact ih tree silent among

end Running

/-! ## Trees of texts -/

/-- The tree of a parse files no token under a demand that it does not meet. -/
theorem exists_metAmong (g : Grammar) (entry : Rule) (tokens : List Token) :
    ∃ tree : Node, (g.parse entry tokens).tree = some tree ∧ tree.MetAmong tokens := by
  obtain ⟨s, ending, run, htree, -⟩ := parse_cases g entry tokens .tree
  obtain ⟨inner, recovered, hparts⟩ := run.exists_node
  have silent : (Token.endOf tokens).text = "" := by
    unfold Token.endOf
    split <;> rfl
  obtain ⟨parts, filed, met⟩ := run.files rfl silent (List.Subset.refl tokens)
  have one : parts = [(.rule entry, .node (.ofParts entry inner recovered))] :=
    List.append_cancel_left (filed.symm.trans hparts)
  refine ⟨_, htree.trans (treeOf_eq_some hparts), met.node (.rule entry) _ ?_⟩
  rw [one]
  exact List.mem_singleton_self _

/-- At every level of a tree, no word stands under a category that rules it out. -/
def Node.Heeds (n : Node) : Prop :=
  ∀ m : Node, m.Within n → ∀ c : Category, ∀ t ∈ m.tokens c, c.Spares t.text

/-- A node of a text that was scanned heeds the words that are ruled out: a token that met a
    category is none of them. -/
theorem Node.MetAmong.heeds {source : String} {file : Option String} {n : Node}
    (h : n.MetAmong (Scan.ofSource source file).tokens) : n.Heeds := by
  intro m within c t ht
  rcases h m within c t ht with ⟨shown, met⟩ | empty
  · exact (spelled_of_mem_ofSource shown).spares met
  · rw [empty]
    exact c.spares_empty

namespace Node.Heeds

variable {n c : Node}

theorem child (h : n.Heeds) (hc : c ∈ n.children) : c.Heeds := fun m within => h m (.step hc within)

/-- A required token of a category is none of the words that the category rules out. -/
theorem requireToken (h : n.Heeds) (c : Category) :
    Ensures (fun o => ∀ t ∈ o, c.Spares t.text) (n.requireToken c) := by
  unfold Node.requireToken
  split
  · rename_i t found
    refine .pure fun u hu => ?_
    cases hu
    exact h n (.root n) c t (List.mem_of_head? found)
  · exact .lack

end Node.Heeds

end GraphQL
