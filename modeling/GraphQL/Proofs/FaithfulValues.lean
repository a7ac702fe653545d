/-
  Names, types and values are faithful.

  What is made of a reading of a type or a value keeps all of it: nothing is missing, and it says
  what was read.  Each lemma takes its row apart, item by item, asks the makers for what they make of
  the items, and puts the signs together again in the same order.  Where makers call each other the
  proofs do so too, along the same descent to children.
-/
import GraphQL.Proofs.Made

namespace GraphQL

variable {r : Rule} {n : Node} {taken : List Token}

/-! ## Names -/

/-- A name is made of the token that met the demand. -/
theorem Name.ofNode_eq {demand : TokenKind} {t : Token} (held : n.token? demand = some t) :
    Name.ofNode demand n = .ok (.ofToken t) := by
  rw [Name.ofNode, Node.requireToken, held]
  rfl

theorem Name.isWhole_ofToken {t : Token} (spelled : t.Spelled) : (ofToken t).isWhole = true := by
  simp [isWhole, isMissing, ofToken, spelled.shown]

theorem Name.sign_ofToken {t : Token} (spelled : t.Spelled) {c : Category}
    (met : t.meets (.category c) = true) (name : c ≠ .string) : t.sign = (ofToken t).sign :=
  spelled.sign_of_name met name

/-- What is made of a reading of a rule for a single name. -/
theorem Name.made_of_single {c : Category} (name : c ≠ .string) (read : ReadFrom r n taken)
    (single : Standard.production r = .token (.category c))
    (none : ∀ parts, (Node.ofParts r parts false).ownSuperfluous = []) :
    Made (fun a : Name => [a.sign]) Name.isWhole n taken (Name.ofNode (.category c) n) := by
  obtain ⟨parts, laid, h⟩ := read
  rw [single] at h
  obtain ⟨t, rfl, rfl, met, spelled⟩ := h.of_token
  exact ⟨_, Name.ofNode_eq (t := t) (by simp [laid]), isWhole_ofToken spelled,
    .plain laid (.token (sign_ofToken spelled met name)) none⟩

/-- A variable is written as a dollar sign and its name, and these are the tokens taken. -/
theorem Variable.ofNode_made (read : ReadFrom .variable n taken) :
    Made Variable.signs Variable.isWhole n taken (Variable.ofNode n) := by
  obtain ⟨parts, laid, h⟩ := read
  obtain ⟨dollar, _, _, rfl, rfl, metDollar, spelledDollar, h⟩ := h.row_token
  obtain ⟨t, _, _, rfl, rfl, met, spelled, h⟩ := h.row_token
  obtain ⟨rfl, rfl⟩ := h.row_nil
  have name : Name.ofNode Category.name n = .ok (.ofToken t) := Name.ofNode_eq (by simp [laid])
  refine ⟨⟨.ofToken t, n.span⟩, by rw [Variable.ofNode, name]; rfl,
    Name.isWhole_ofToken spelled, .plain laid ?_ fun _ => rfl⟩
  exact .cons (spelledDollar.sign_of_mark metDollar) (.token (Name.sign_ofToken spelled met (by decide)))

/-! ## Types -/

/-- A named type is written as its name. -/
theorem NamedType.ofNode_made (read : ReadFrom .namedType n taken) :
    Made NamedType.signs NamedType.isWhole n taken (NamedType.ofNode n) := by
  obtain ⟨a, eq, ha, spells⟩ := Name.made_of_single (c := .name) (by decide) read rfl fun _ => rfl
  exact ⟨⟨a, n.span⟩, by rw [NamedType.ofNode, eq]; rfl, ha, spells⟩

mutual

/-- A type is written as what it names or as the list that it is, with an exclamation mark if it has
    one. -/
theorem TypeReference.ofNode_made (n : Node) {taken : List Token} (read : ReadFrom .type n taken) :
    Made TypeReference.signs TypeReference.isWhole n taken (TypeReference.ofNode n) := by
  obtain ⟨parts, laid, h⟩ := read
  obtain ⟨first, more, _, _, rfl, rfl, chosen, h⟩ := h.row_cons
  obtain ⟨e?, _, _, rfl, rfl, marked, h⟩ := h.row_optionalToken
  obtain ⟨rfl, rfl⟩ := h.row_nil
  obtain ⟨q, hq, c, rfl, read⟩ := chosen.of_rules [.namedType, .listType]
  have only : n.children = [c] := Node.children_eq_singleton laid (by cases e? <;> rfl)
  have hc : c ∈ n.children := only ▸ List.mem_cons_self
  -- what stands inside the mark
  have inner : ∃ t, (∀ marked, n.has (.token Punctuator.exclamation) = marked →
      TypeReference.ofNode n = .ok (if marked then .nonNull t n.span else t)) ∧
        t.isWhole = true ∧ Spells first c.superfluous t.signs := by
    rcases List.mem_pair.mp hq with rfl | rfl
    · obtain ⟨t, eq, ht, spells⟩ := NamedType.ofNode_made read
      refine ⟨.named t, fun marked hmarked => ?_, ht, spells⟩
      rw [TypeReference.ofNode, withChosen_eq (.ok (some (.named t))) only, hmarked]
      · rfl
      · intro _
        simp only [read.rule_eq, eq]
        rfl
    · obtain ⟨t, eq, ht, spells⟩ := TypeReference.listOfNode_made c read
      refine ⟨t, fun marked hmarked => ?_, ht, spells⟩
      rw [TypeReference.ofNode, withChosen_eq (.ok (some t)) only, hmarked]
      · rfl
      · intro _
        simp only [read.rule_eq, eq]
        rfl
  obtain ⟨t, eq, ht, spells⟩ := inner
  cases e? with
  | none =>
    have unmarked : n.has (.token Punctuator.exclamation) = false := by rw [laid]; rfl
    exact ⟨t, eq _ unmarked, ht, .plain laid (by simpa using spells) fun _ => rfl⟩
  | some e =>
    obtain ⟨met, spelled⟩ := marked e rfl
    have marked : n.has (.token Punctuator.exclamation) = true := by rw [laid]; rfl
    refine ⟨.nonNull t n.span, eq _ marked, ht, .plain laid ?_ fun _ => rfl⟩
    simpa [TypeReference.signs] using spells.append (.token (spelled.sign_of_mark met))
termination_by sizeOf n
decreasing_by all_goals exact Node.sizeOf_lt_of_mem_children ‹_›

/-- A list type is written as its element type between brackets. -/
theorem TypeReference.listOfNode_made (n : Node) {taken : List Token}
    (read : ReadFrom .listType n taken) :
    Made TypeReference.signs TypeReference.isWhole n taken (TypeReference.listOfNode n) := by
  obtain ⟨parts, laid, h⟩ := read
  obtain ⟨t, _, _, rfl, rfl, met, spelled, h⟩ := h.row_token
  obtain ⟨c, inner, _, _, rfl, rfl, read, h⟩ := h.row_call
  obtain ⟨t', _, _, rfl, rfl, met', spelled', h⟩ := h.row_token
  obtain ⟨rfl, rfl⟩ := h.row_nil
  obtain ⟨element, eq, whole, spells⟩ := read.withRequired (n := n) (by simp [laid])
    fun c _ => TypeReference.ofNode_made c
  refine ⟨.list element n.span, by rw [TypeReference.listOfNode, eq]; rfl, whole,
    .plain laid ?_ fun _ => rfl⟩
  simpa [TypeReference.signs] using
    Spells.between (spelled.sign_of_mark met) (spelled'.sign_of_mark met') spells
termination_by sizeOf n
decreasing_by all_goals exact Node.sizeOf_lt_of_mem_children ‹_›

end

/-- The type that must be there. -/
theorem TypeReference.within_made {c : Node} (read : ReadFrom .type c taken)
    (held : n.nodes .type = [c]) :
    ∃ t, TypeReference.within n = .ok t ∧ t.isWhole = true ∧ Spells taken c.superfluous t.signs := by
  obtain ⟨t, eq, whole, spells⟩ := read.withRequired held fun c _ => TypeReference.ofNode_made c
  exact ⟨t, by rw [within, eq]; rfl, whole, spells⟩

/-- The named type that must be there. -/
theorem NamedType.within_made {c : Node} (read : ReadFrom .namedType c taken)
    (held : n.nodes .namedType = [c]) :
    ∃ t, NamedType.within n = .ok t ∧ t.isWhole = true ∧ Spells taken c.superfluous t.signs := by
  obtain ⟨t, eq, whole, spells⟩ := read.withRequired held fun _ _ => NamedType.ofNode_made
  exact ⟨t, by rw [within, eq]; rfl, whole, spells⟩

/-! ## Literals -/

theorem Node.requireToken_eq {demand : TokenKind} {t : Token} (held : n.token? demand = some t) :
    n.requireToken demand = .ok (some t) := by
  rw [requireToken, held]

theorem StringValue.sign_ofToken {t : Token} (spelled : t.Spelled)
    (met : t.meets (.category .string) = true) : t.sign = (ofToken t).sign :=
  spelled.sign_of_string met

namespace Value

/-- A boolean is written as its word. -/
theorem booleanOfNode_made (read : ReadFrom .booleanValue n taken) :
    Chosen signs isWhole n taken (booleanOfNode n) := by
  obtain ⟨parts, laid, h⟩ := read
  obtain ⟨p, hp, h⟩ := h.of_choice
  rcases List.mem_pair.mp hp with rfl | rfl
  · obtain ⟨t, rfl, rfl, met, spelled⟩ := h.of_token
    have found : n.has (.token Word.trueWord) = true := by rw [laid]; rfl
    exact ⟨some (.boolean true n.span), by rw [booleanOfNode, if_pos found], rfl,
      .plain laid (.token (spelled.sign_of_word met)) fun _ => rfl⟩
  · obtain ⟨t, rfl, rfl, met, spelled⟩ := h.of_token
    have other : n.has (.token Word.trueWord) = false := by rw [laid]; rfl
    have found : n.has (.token Word.falseWord) = true := by rw [laid]; rfl
    exact ⟨some (.boolean false n.span), by rw [booleanOfNode, if_neg (by simp [other]), if_pos found],
      rfl, .plain laid (.token (spelled.sign_of_word met)) fun _ => rfl⟩

/-- Null is written as its word. -/
theorem nullOfNode_made (read : ReadFrom .nullValue n taken) :
    Made signs isWhole n taken (nullOfNode n) := by
  obtain ⟨parts, laid, h⟩ := read
  obtain ⟨t, rfl, rfl, met, spelled⟩ := h.of_token
  have found : n.requireToken Word.nullWord = .ok (some t) :=
    Node.requireToken_eq (by simp [laid])
  exact ⟨.null n.span, by rw [nullOfNode, found]; rfl, rfl,
    .plain laid (.token (spelled.sign_of_word met)) fun _ => rfl⟩

/-- An enumeration value is written as its name. -/
theorem enumOfNode_made (read : ReadFrom .enumValue n taken) :
    Chosen signs isWhole n taken (enumOfNode n) := by
  obtain ⟨parts, laid, h⟩ := read
  obtain ⟨t, rfl, rfl, met, spelled⟩ := h.of_token
  have found : n.requireToken Category.nameButLiteral = .ok (some t) :=
    Node.requireToken_eq (by simp [laid])
  exact ⟨some (.enum t.text t.bytes), by rw [enumOfNode, found]; rfl, rfl,
    .plain laid (.token (spelled.sign_of_name met (by decide))) fun _ => rfl⟩

/-- A value that is a nested reading is no literal of its own. -/
theorem literal?_eq_none {q : Rule} {cs : List Node}
    (laid : n = .ofParts .value (nodeParts q cs) false) : literal? n = none := by
  simp [literal?, laid]

/-! ## Values -/

end Value

mutual

/-- A value is written as its literal or as the alternative that its node was read by. -/
theorem Value.ofNode_made (n : Node) {taken : List Token} (read : ReadFrom .value n taken) :
    Chosen Value.signs Value.isWhole n taken (Value.ofNode n) := by
  obtain ⟨parts, laid, h⟩ := read
  obtain ⟨p, hp, h⟩ := h.of_choice
  have hp : p ∈ [Standard.rule .variable, .token .int, .token .float, Standard.any .string,
    Standard.rule .booleanValue, Standard.rule .nullValue, Standard.rule .enumValue,
    Standard.sameRule .listValue, Standard.sameRule .objectValue] := hp
  simp only [List.mem_cons, List.not_mem_nil, or_false] at hp
  -- numbers and strings are tokens of the node itself, other values are readings of other rules
  rcases hp with rfl | rfl | rfl | rfl | rfl | rfl | rfl | rfl | rfl
  · obtain ⟨c, rfl, read⟩ := h.of_call
    rw [Value.ofNode, Value.literal?_eq_none laid]
    exact withChosen_made laid (fun _ => rfl) fun _ => ⟨_, fun _ => by simp only [read.rule_eq],
      (Variable.ofNode_made read).chosen .variable (fun _ => rfl) fun _ => rfl⟩
  · obtain ⟨t, rfl, rfl, met, spelled⟩ := h.of_token
    have literal : Value.literal? n = some (.int t.text t.bytes) := by simp [Value.literal?, laid]
    exact ⟨some (.int t.text t.bytes), by rw [Value.ofNode, literal], rfl,
      .plain laid (.token (Token.Spelled.sign_of_meets met rfl)) fun _ => rfl⟩
  · obtain ⟨t, rfl, rfl, met, spelled⟩ := h.of_token
    have literal : Value.literal? n = some (.float t.text t.bytes) := by simp [Value.literal?, laid]
    exact ⟨some (.float t.text t.bytes), by rw [Value.ofNode, literal], rfl,
      .plain laid (.token (Token.Spelled.sign_of_meets met rfl)) fun _ => rfl⟩
  · obtain ⟨t, rfl, rfl, met, spelled⟩ := h.of_token
    have literal : Value.literal? n = some (.string (.ofToken t)) := by simp [Value.literal?, laid]
    exact ⟨some (.string (.ofToken t)), by rw [Value.ofNode, literal], rfl,
      .plain laid (.token (StringValue.sign_ofToken spelled met)) fun _ => rfl⟩
  · obtain ⟨c, rfl, read⟩ := h.of_call
    rw [Value.ofNode, Value.literal?_eq_none laid]
    exact withChosen_made laid (fun _ => rfl) fun _ => ⟨_, fun _ => by simp only [read.rule_eq],
      Value.booleanOfNode_made read⟩
  · obtain ⟨c, rfl, read⟩ := h.of_call
    rw [Value.ofNode, Value.literal?_eq_none laid]
    exact withChosen_made laid (fun _ => rfl) fun _ => ⟨_, fun _ => by simp only [read.rule_eq],
      (Value.nullOfNode_made read).some⟩
  · obtain ⟨c, rfl, read⟩ := h.of_call
    rw [Value.ofNode, Value.literal?_eq_none laid]
    exact withChosen_made laid (fun _ => rfl) fun _ => ⟨_, fun _ => by simp only [read.rule_eq],
      Value.enumOfNode_made read⟩
  · obtain ⟨c, rfl, read⟩ := h.of_call
    rw [Value.ofNode, Value.literal?_eq_none laid]
    exact withChosen_made laid (fun _ => rfl) fun _ => ⟨_, fun _ => by simp only [read.rule_eq],
      (Value.listOfNode_made c read).some⟩
  · obtain ⟨c, rfl, read⟩ := h.of_call
    rw [Value.ofNode, Value.literal?_eq_none laid]
    exact withChosen_made laid (fun _ => rfl) fun _ => ⟨_, fun _ => by simp only [read.rule_eq],
      (Value.objectOfNode_made c read).some⟩
termination_by sizeOf n
decreasing_by all_goals exact Node.sizeOf_lt_of_mem_children ‹_›

/-- A list is written as its values between brackets. -/
theorem Value.listOfNode_made (n : Node) {taken : List Token} (read : ReadFrom .listValue n taken) :
    Made Value.signs Value.isWhole n taken (Value.listOfNode n) := by
  obtain ⟨parts, laid, h⟩ := read
  obtain ⟨t, _, _, rfl, rfl, met, spelled, h⟩ := h.row_token
  obtain ⟨cs, inner, _, _, rfl, rfl, all, h⟩ := h.row_many
  obtain ⟨t', _, _, rfl, rfl, met', spelled', h⟩ := h.row_token
  obtain ⟨rfl, rfl⟩ := h.row_nil
  obtain ⟨values, eq, whole, -, spells⟩ := all.withPresent (n := n) (by simp [laid])
    fun c _ _ => Value.ofNode_made c
  refine ⟨.list values n.span, by rw [Value.listOfNode, eq]; rfl, ?_, .plain laid ?_ fun _ => rfl⟩
  · rwa [Value.isWhole, Value.allWhole_eq]
  · simpa [Value.signs, Value.allSigns_eq] using
      Spells.between (spelled.sign_of_mark met) (spelled'.sign_of_mark met') spells
termination_by sizeOf n
decreasing_by all_goals exact Node.sizeOf_lt_of_mem_children ‹_›

/-- An object is written as its fields between braces. -/
theorem Value.objectOfNode_made (n : Node) {taken : List Token}
    (read : ReadFrom .objectValue n taken) :
    Made Value.signs Value.isWhole n taken (Value.objectOfNode n) := by
  obtain ⟨parts, laid, h⟩ := read
  obtain ⟨t, _, _, rfl, rfl, met, spelled, h⟩ := h.row_token
  obtain ⟨cs, inner, _, _, rfl, rfl, all, h⟩ := h.row_many
  obtain ⟨t', _, _, rfl, rfl, met', spelled', h⟩ := h.row_token
  obtain ⟨rfl, rfl⟩ := h.row_nil
  obtain ⟨fields, eq, whole, -, spells⟩ := all.withEach (n := n) (by simp [laid])
    fun c _ _ => ObjectField.ofNode_made c
  refine ⟨.object fields n.span, by rw [Value.objectOfNode, eq]; rfl, ?_,
    .plain laid ?_ fun _ => rfl⟩
  · rwa [Value.isWhole, ObjectField.allWhole_eq]
  · simpa [Value.signs, ObjectField.allSigns_eq] using
      Spells.between (spelled.sign_of_mark met) (spelled'.sign_of_mark met') spells
termination_by sizeOf n
decreasing_by all_goals exact Node.sizeOf_lt_of_mem_children ‹_›

/-- An object field is written as its name, a colon and its value. -/
theorem ObjectField.ofNode_made (n : Node) {taken : List Token}
    (read : ReadFrom .objectField n taken) :
    Made ObjectField.signs ObjectField.isWhole n taken (ObjectField.ofNode n) := by
  obtain ⟨parts, laid, h⟩ := read
  obtain ⟨t, _, _, rfl, rfl, met, spelled, h⟩ := h.row_token
  obtain ⟨colon, _, _, rfl, rfl, metColon, spelledColon, h⟩ := h.row_token
  obtain ⟨c, inner, _, _, rfl, rfl, read, h⟩ := h.row_call
  obtain ⟨rfl, rfl⟩ := h.row_nil
  have name : Name.ofNode Category.name n = .ok (.ofToken t) := Name.ofNode_eq (by simp [laid])
  obtain ⟨v, value, whole, spells⟩ := read.withRequired_some (n := n) (by simp [laid])
    fun c _ => Value.ofNode_made c
  refine ⟨⟨.ofToken t, v, n.span⟩, by rw [ObjectField.ofNode, name, value]; rfl, ?_,
    .plain laid ?_ fun _ => rfl⟩
  · rw [ObjectField.isWhole, Name.isWhole_ofToken spelled, whole]
    rfl
  · simpa [ObjectField.signs] using Spells.cons (Name.sign_ofToken spelled met (by decide))
      (.cons (spelledColon.sign_of_mark metColon) spells)
termination_by sizeOf n
decreasing_by all_goals exact Node.sizeOf_lt_of_mem_children ‹_›

end

/-- The value that must be there. -/
theorem Value.within_made {c : Node} (read : ReadFrom .value c taken) (held : n.nodes .value = [c]) :
    ∃ v, Value.within n = .ok (some v) ∧ v.isWhole = true ∧ Spells taken c.superfluous v.signs := by
  obtain ⟨v, eq, whole, spells⟩ := read.withRequired_some held fun c _ => Value.ofNode_made c
  exact ⟨v, by rw [within, eq]; rfl, whole, spells⟩

end GraphQL
