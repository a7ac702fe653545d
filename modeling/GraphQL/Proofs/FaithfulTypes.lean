/-
  Definitions of a type system are faithful.

  The clauses of a type are the same in its definition and in its extensions (`TypeSort.clauses`):
  that an extension has one at least is a matter of what is written, not of what is made of it.

  Here are the lists with marks between their items, and with a mark before the first that may be
  left out (`Matches.separated_made`).
-/
import GraphQL.Proofs.FaithfulDefinitions

namespace GraphQL

variable {r : Rule} {n : Node} {taken : List Token}

/-! ## Schemas -/

/-- A schema is written as its word, its directives and its types of operations between braces. -/
theorem SchemaDefinition.ofNode_made (read : ReadFrom .schemaDefinition n taken) :
    Made SchemaDefinition.signs SchemaDefinition.isWhole n taken (SchemaDefinition.ofNode n) := by
  obtain ⟨parts, laid, h⟩ := read
  -- the row, item by item
  obtain ⟨t, _, _, rfl, rfl, met, spelled, h⟩ := h.row_token
  obtain ⟨ds?, _, _, _, rfl, rfl, directed, h⟩ := h.row_optional
  obtain ⟨opening, _, _, rfl, rfl, metOpening, spelledOpening, h⟩ := h.row_token
  obtain ⟨c, cs, _, _, _, rfl, rfl, all, h⟩ := h.row_atLeastOne
  obtain ⟨closing, _, _, rfl, rfl, metClosing, spelledClosing, h⟩ := h.row_token
  obtain ⟨rfl, rfl⟩ := h.row_nil
  -- what is made of the items
  obtain ⟨directives, hds, wholeDs, -, spellsDs⟩ :=
    Directive.attached_made (n := n) directed (by simp [laid])
  obtain ⟨types, htypes, wholeTypes, count, spellsTypes⟩ :=
    all.withEach (n := n) (by simp [laid]) fun _ _ => OperationTypeDefinition.ofNode_made
  have htypes : OperationTypeDefinition.allWithin n = .ok types := htypes
  refine ⟨⟨directives, types, n.span⟩, by rw [SchemaDefinition.ofNode, hds, htypes]; rfl, ?_,
    .plain laid ?_ fun _ => rfl⟩
  · simp [SchemaDefinition.isWhole, *]
  · -- at least one type of an operation was read, so the braces are there
    have listed := Spells.between (spelledOpening.sign_of_mark metOpening)
      (spelledClosing.sign_of_mark metClosing) spellsTypes
    cases types with
    | nil => cases count
    | cons type types =>
      simpa [SchemaDefinition.signs, operationTypesSigns, clauseBetween] using
        Spells.cons (spelled.sign_of_word met) (spellsDs.append listed)

/-! ## Lists with marks -/

/-- Interfaces are written with ampersands between them, and one in front may be there or not. -/
theorem NamedType.interfaces_made (read : ReadFrom .implementsInterfaces n taken) :
    Made interfacesSigns (listWhole NamedType.isWhole) n taken (NamedType.allWithin n) := by
  obtain ⟨parts, laid, h⟩ := read
  obtain ⟨t, _, _, rfl, rfl, met, spelled, h⟩ := h.row_token
  obtain ⟨types, eq, whole, spells⟩ := h.separated_made (n := n) (by simp [laid]) (by simp [laid])
    fun _ _ => NamedType.ofNode_made
  have own : n.ownSuperfluous = n.leadingMark .ampersand .namedType := by
    rw [laid]
    rfl
  refine ⟨types, eq, whole, .ofParts laid ?_⟩
  have all := Spells.cons (spelled.sign_of_word met) spells
  cases types with
  | nil => cases whole
  | cons type types => simpa [own, interfacesSigns] using all

/-- The members of a union are written with bars between them, and one in front may be there
    or not. -/
theorem NamedType.members_made (read : ReadFrom .unionMemberTypes n taken) :
    Made unionSigns (listWhole NamedType.isWhole) n taken (NamedType.allWithin n) := by
  obtain ⟨parts, laid, h⟩ := read
  obtain ⟨t, _, _, rfl, rfl, met, spelled, h⟩ := h.row_token
  obtain ⟨types, eq, whole, spells⟩ := h.separated_made (n := n) (by simp [laid]) (by simp [laid])
    fun _ _ => NamedType.ofNode_made
  have own : n.ownSuperfluous = n.leadingMark .bar .namedType := by
    rw [laid]
    rfl
  refine ⟨types, eq, whole, .ofParts laid ?_⟩
  have all := Spells.cons (spelled.sign_of_mark met) spells
  cases types with
  | nil => cases whole
  | cons type types => simpa [own, unionSigns] using all

/-! ## Types -/

namespace TypeSort

/-- The word for a sort of types. -/
def word : TypeSort → Word
  | .scalar => .scalar
  | .object => .type
  | .interface => .interface
  | .union => .union
  | .enum => .enum
  | .inputObject => .input

/-- The clauses that may stand behind the name of a type. -/
def clauses (sort : TypeSort) : List Production :=
  let directives := .optional (Standard.constRule .directives)
  match sort with
  | .scalar => [directives]
  | .object =>
    [.optional (Standard.rule .implementsInterfaces), directives,
     .optional (Standard.rule .fieldsDefinition)]
  | .interface => [directives, .optional (Standard.rule .fieldsDefinition)]
  | .union => [directives, .optional (Standard.rule .unionMemberTypes)]
  | .enum => [directives, .optional (Standard.rule .enumValuesDefinition)]
  | .inputObject => [directives, .optional (Standard.rule .inputFieldsDefinition)]

theorem production_definitionRule (sort : TypeSort) :
    Standard.production sort.definitionRule = .sequence
      (.optional (Standard.rule .description) :: Standard.word sort.word :: Standard.any .name
        :: sort.clauses) := by
  cases sort <;> rfl

end TypeSort

/-! ### Clauses of extensions -/

section Clauses

variable {p : Production} {items : List Production} {parts : List Part}

/-- An optional item that is not there. -/
theorem Matches.pass (h : Matches Standard.productions (.sequence items) taken parts) :
    Matches Standard.productions (.sequence (.optional p :: items)) taken parts :=
  .cons .skip h

/-- An optional item that is there, as the last. -/
theorem Matches.last (h : Matches Standard.productions p taken parts) :
    Matches Standard.productions (.sequence [.optional p]) taken parts := by
  simpa using Matches.cons (.enter h) .nil

/-- Directives and another clause, of which one at least is there. -/
theorem Matches.pair {directives body : Production}
    (h : Matches Standard.productions
      (Standard.either [.sequence [directives, .optional body], body]) taken parts) :
    Matches Standard.productions (.sequence [.optional directives, .optional body]) taken parts := by
  obtain ⟨q, hq, chosen⟩ := h.of_choice
  rcases List.mem_pair.mp hq with rfl | rfl
  · obtain ⟨_, _, _, _, rfl, rfl, first, others⟩ := chosen.row_cons
    exact .cons (.enter first) others
  · exact chosen.last.pass

/-- What stands behind the name in an extension of a type could stand there in a definition. -/
theorem TypeSort.exists_row (sort : TypeSort)
    (h : Matches Standard.productions (Standard.production sort.extensionRule) taken parts) :
    ∃ p, Matches Standard.productions (.sequence
        [Standard.word .extend, Standard.word sort.word, Standard.any .name, p]) taken parts ∧
      ∀ {taken parts}, Matches Standard.productions p taken parts →
        Matches Standard.productions (.sequence sort.clauses) taken parts := by
  cases sort with
  | scalar => exact ⟨_, h, Matches.last⟩
  | object =>
    -- interfaces stand before directives, so there are three ways to have one clause at least
    refine ⟨_, h, fun h => ?_⟩
    obtain ⟨q, hq, chosen⟩ := h.of_choice
    have hq : q ∈ [.sequence [Standard.rule .implementsInterfaces,
        .optional (Standard.constRule .directives), .optional (Standard.rule .fieldsDefinition)],
      .sequence [Standard.constRule .directives, .optional (Standard.rule .fieldsDefinition)],
      Standard.rule .fieldsDefinition] := hq
    simp only [List.mem_cons, List.not_mem_nil, or_false] at hq
    rcases hq with rfl | rfl | rfl
    · obtain ⟨_, _, _, _, rfl, rfl, first, others⟩ := chosen.row_cons
      exact .cons (.enter first) others
    · obtain ⟨_, _, _, _, rfl, rfl, first, others⟩ := chosen.row_cons
      exact .pass (.cons (.enter first) others)
    · exact chosen.last.pass.pass
  | interface => exact ⟨_, h, Matches.pair⟩
  | union => exact ⟨_, h, Matches.pair⟩
  | enum => exact ⟨_, h, Matches.pair⟩
  | inputObject => exact ⟨_, h, Matches.pair⟩

/-- What is made of directives and of a list behind them. -/
theorem Directive.attached_and_list {α : Type} {signs : List α → List Sign} {whole : α → Bool}
    {q : Rule} {arg arg' : ConstArg} {f : Node → Build (List α)}
    (h : Matches Standard.productions
      (.sequence [.optional (.call .directives arg), .optional (.call q arg')]) taken parts)
    (held : ∀ q, q ≠ .description → n.nodes q = nodesUnder q parts) (other : q ≠ .directives)
    (clause : q ≠ .description) (nothing : signs [] = [])
    (made : ∀ {c taken}, ReadFrom q c taken → Made signs (listWhole whole) c taken (f c)) :
    ∃ ds as, Directive.attached n = .ok ds ∧ listWithin n q f = .ok as ∧
      ds.all Directive.isWhole = true ∧ as.all whole = true ∧
      Spells taken (superfluousOfParts parts) (directivesSigns ds ++ signs as) := by
  obtain ⟨ds?, _, _, _, rfl, rfl, directed, h⟩ := h.row_optional
  obtain ⟨as?, _, _, _, rfl, rfl, listed, h⟩ := h.row_optional
  obtain ⟨rfl, rfl⟩ := h.row_nil
  obtain ⟨directives, hds, wholeDs, -, spellsDs⟩ :=
    Directive.attached_made (n := n) directed (by simp [held, other])
  obtain ⟨as, has, wholeAs, -, spellsAs⟩ :=
    listed.listWithin (n := n) (by simp [held _ clause, other.symm]) nothing made
  exact ⟨directives, as, hds, has, wholeDs, wholeAs, by simpa using spellsDs.append spellsAs⟩

/-- What is made of the clauses of a type. -/
theorem TypeShape.ofNode_made (sort : TypeSort)
    (h : Matches Standard.productions (.sequence sort.clauses) taken parts)
    (held : ∀ q, q ≠ .description → n.nodes q = nodesUnder q parts) :
    ∃ directives shape, TypeShape.ofNode n sort = .ok (directives, shape) ∧
      shape.word = sort.word ∧ directives.all Directive.isWhole = true ∧ shape.isWhole = true ∧
      Spells taken (superfluousOfParts parts) (shape.clauseSigns directives) := by
  -- each sort has clauses of its own, and only those of objects and scalars are no list of members
  -- behind directives
  cases sort with
  | scalar =>
    obtain ⟨ds?, _, _, _, rfl, rfl, directed, h⟩ := h.row_optional
    obtain ⟨rfl, rfl⟩ := h.row_nil
    obtain ⟨directives, hds, wholeDs, -, spellsDs⟩ :=
      Directive.attached_made (n := n) directed (by simp [held])
    refine ⟨directives, .scalar, by rw [TypeShape.ofNode, hds]; rfl, rfl, wholeDs, rfl, ?_⟩
    simpa [clauseSigns] using spellsDs
  | object =>
    obtain ⟨is?, _, _, _, rfl, rfl, implemented, h⟩ := h.row_optional
    obtain ⟨ds?, _, _, _, rfl, rfl, directed, h⟩ := h.row_optional
    obtain ⟨fs?, _, _, _, rfl, rfl, fielded, h⟩ := h.row_optional
    obtain ⟨rfl, rfl⟩ := h.row_nil
    obtain ⟨interfaces, his, wholeIs, -, spellsIs⟩ :=
      implemented.listWithin (n := n) (by simp [held]) rfl NamedType.interfaces_made
    obtain ⟨directives, hds, wholeDs, -, spellsDs⟩ :=
      Directive.attached_made (n := n) directed (by simp [held])
    obtain ⟨fields, hfs, wholeFs, -, spellsFs⟩ :=
      fielded.listWithin (n := n) (by simp [held]) rfl FieldDefinition.allWithin_made
    refine ⟨directives, .object interfaces fields,
      by rw [TypeShape.ofNode, his, hds, hfs]; rfl, rfl, wholeDs,
      by simp [TypeShape.isWhole, *], ?_⟩
    simpa [clauseSigns] using spellsIs.append (spellsDs.append spellsFs)
  | interface =>
    obtain ⟨directives, fields, hds, hfs, wholeDs, wholeFs, spells⟩ :=
      Directive.attached_and_list h held (by decide) (by decide) rfl FieldDefinition.allWithin_made
    exact ⟨directives, .interface fields, by rw [TypeShape.ofNode, hds, hfs]; rfl, rfl, wholeDs,
      wholeFs, spells⟩
  | union =>
    obtain ⟨directives, types, hds, hts, wholeDs, wholeTs, spells⟩ :=
      Directive.attached_and_list h held (by decide) (by decide) rfl NamedType.members_made
    exact ⟨directives, .union types, by rw [TypeShape.ofNode, hds, hts]; rfl, rfl, wholeDs,
      wholeTs, spells⟩
  | enum =>
    obtain ⟨directives, values, hds, hvs, wholeDs, wholeVs, spells⟩ :=
      Directive.attached_and_list h held (by decide) (by decide) rfl EnumValueDefinition.allWithin_made
    exact ⟨directives, .enum values, by rw [TypeShape.ofNode, hds, hvs]; rfl, rfl, wholeDs,
      wholeVs, spells⟩
  | inputObject =>
    obtain ⟨directives, fields, hds, hfs, wholeDs, wholeFs, spells⟩ :=
      Directive.attached_and_list h held (by decide) (by decide) rfl InputValueDefinition.fields_made
    exact ⟨directives, .inputObject fields, by rw [TypeShape.ofNode, hds, hfs]; rfl, rfl, wholeDs,
      wholeFs, spells⟩

/-- An extension of a schema has directives, or types, or both. -/
theorem SchemaDefinition.extensionOfNode_made (read : ReadFrom .schemaExtension n taken) :
    Made (fun s => Word.extend.sign :: SchemaDefinition.signs s) SchemaDefinition.isWhole n taken
      (SchemaDefinition.extensionOfNode n) := by
  obtain ⟨parts, laid, h⟩ := read
  obtain ⟨t, _, _, rfl, rfl, met, spelled, h⟩ := h.row_token
  obtain ⟨t', _, _, rfl, rfl, met', spelled', h⟩ := h.row_token
  obtain ⟨_, _, _, _, rfl, rfl, clauses, h⟩ := h.row_cons
  obtain ⟨rfl, rfl⟩ := h.row_nil
  obtain ⟨directives, types, hds, hts, wholeDs, wholeTs, spells⟩ :=
    Directive.attached_and_list (n := n) clauses.pair (by simp [laid]) (by decide) (by decide) rfl
      OperationTypeDefinition.allWithin_made
  refine ⟨⟨directives, types, n.span⟩,
    by rw [SchemaDefinition.extensionOfNode, hds, hts]; rfl, ?_, .plain laid ?_ fun _ => rfl⟩
  · simp [SchemaDefinition.isWhole, *]
  · simpa [SchemaDefinition.signs] using
      Spells.cons (spelled.sign_of_word met) (.cons (spelled'.sign_of_word met') spells)

end Clauses

/-- A type definition is written as its description, the word of its sort, its name and its
    clauses. -/
theorem TypeDefinition.ofNode_made (sort : TypeSort) (read : ReadFrom sort.definitionRule n taken) :
    Made TypeDefinition.signs TypeDefinition.isWhole n taken (TypeDefinition.ofNode sort n) := by
  obtain ⟨parts, laid, h⟩ := read
  rw [sort.production_definitionRule] at h
  obtain ⟨s?, _, _, _, rfl, rfl, described, h⟩ := h.row_optional
  obtain ⟨t, _, _, rfl, rfl, met, spelled, h⟩ := h.row_token
  obtain ⟨t', _, _, rfl, rfl, met', spelled', h⟩ := h.row_token
  -- a description is told from the clauses by its label
  have undescribed : Rule.description ∉ (Production.sequence sort.clauses).calls := by
    cases sort <;> decide
  obtain ⟨description, hdesc, spellsDesc⟩ :=
    StringValue.description_made (n := n) described (by simp [laid, h.nodesUnder_eq_nil undescribed])
  have name : Name.ofNode Category.name n = .ok (.ofToken t') := Name.ofNode_eq (by simp [laid])
  obtain ⟨directives, shape, hshape, word, wholeDs, wholeShape, spellsShape⟩ :=
    TypeShape.ofNode_made (n := n) sort h fun q hq => by simp [laid, hq.symm]
  refine ⟨⟨description, .ofToken t', directives, shape, n.span⟩,
    by rw [TypeDefinition.ofNode, hdesc, name, hshape]; rfl, ?_, .plain laid ?_ ?_⟩
  · simp [TypeDefinition.isWhole, Name.isWhole_ofToken spelled', *]
  · simpa [TypeDefinition.signs, word] using spellsDesc.append
      (.cons (spelled.sign_of_word met) (.cons (Name.sign_ofToken spelled' met' (by decide)) spellsShape))
  · cases sort <;> exact fun _ => rfl

/-- A type extension is written as its two words, its name and its clauses. -/
theorem TypeExtension.ofNode_made (sort : TypeSort) (read : ReadFrom sort.extensionRule n taken) :
    Made TypeExtension.signs TypeExtension.isWhole n taken (TypeExtension.ofNode sort n) := by
  obtain ⟨parts, laid, h⟩ := read
  obtain ⟨p, h, clauses⟩ := sort.exists_row h
  obtain ⟨extend, _, _, rfl, rfl, metExtend, spelledExtend, h⟩ := h.row_token
  obtain ⟨t, _, _, rfl, rfl, met, spelled, h⟩ := h.row_token
  obtain ⟨t', _, _, rfl, rfl, met', spelled', h⟩ := h.row_token
  obtain ⟨_, _, _, _, rfl, rfl, extended, h⟩ := h.row_cons
  obtain ⟨rfl, rfl⟩ := h.row_nil
  have name : Name.ofNode Category.name n = .ok (.ofToken t') := Name.ofNode_eq (by simp [laid])
  obtain ⟨directives, shape, hshape, word, wholeDs, wholeShape, spellsShape⟩ :=
    TypeShape.ofNode_made (n := n) sort (clauses extended) fun q _ => by simp [laid]
  refine ⟨⟨.ofToken t', directives, shape, n.span⟩,
    by rw [TypeExtension.ofNode, name, hshape]; rfl, ?_, .plain laid ?_ ?_⟩
  · simp [TypeExtension.isWhole, Name.isWhole_ofToken spelled', *]
  · simpa [TypeExtension.signs, word] using
      Spells.cons (spelledExtend.sign_of_word metExtend) (.cons (spelled.sign_of_word met)
        (.cons (Name.sign_ofToken spelled' met' (by decide)) spellsShape))
  · -- what is left out does not depend on the sort
    cases sort <;> exact fun _ => rfl

/-! ## Directives -/

/-- The place that a reading of a list of places names. -/
theorem locationName_made (locations : List Location) (read : ReadFrom r n taken)
    (row : Standard.production r = Standard.either (locations.map Standard.location))
    (none : ∀ parts, (Node.ofParts r parts false).ownSuperfluous = []) :
    Chosen (fun a : Name => [a.sign]) Name.isWhole n taken (locationName n) := by
  obtain ⟨parts, laid, h⟩ := read
  rw [row] at h
  obtain ⟨p, hp, h⟩ := h.of_choice
  obtain ⟨l, -, rfl⟩ : ∃ l ∈ locations, Standard.location l = p := by simpa using hp
  obtain ⟨t, rfl, rfl, met, spelled⟩ := h.of_token
  have first : n.labelledTokens.head? = some t := by
    simp [laid, Node.labelledTokens, Node.ofParts, Node.group, tokenParts, distinct, Element.token?]
  exact ⟨some (.ofToken t), by rw [locationName, first], Name.isWhole_ofToken spelled,
    .plain laid (.token (spelled.sign_of_location met)) none⟩

/-- A location is written as its word, of either kind. -/
theorem directiveLocation_made (read : ReadFrom .directiveLocation n taken) :
    Chosen (fun a : Name => [a.sign]) Name.isWhole n taken (directiveLocation n) := by
  obtain ⟨parts, laid, h⟩ := read
  obtain ⟨q, hq, c, rfl, read⟩ :=
    h.of_rules [.executableDirectiveLocation, .typeSystemDirectiveLocation]
  refine withChosen_made laid (fun _ => rfl) fun _ => ?_
  rcases List.mem_pair.mp hq with rfl | rfl
  · exact ⟨_, fun _ => by simp only [read.rule_eq],
      locationName_made (Location.all.take 7) read rfl fun _ => rfl⟩
  · exact ⟨_, fun _ => by simp only [read.rule_eq],
      locationName_made (Location.all.drop 7) read rfl fun _ => rfl⟩

/-- Locations are written with bars between them, and one in front may be there or not. -/
theorem directiveLocations_made (read : ReadFrom .directiveLocations n taken) :
    Made (separated .bar fun a : Name => [a.sign]) (listWhole Name.isWhole) n taken
      (directiveLocations n) := by
  obtain ⟨parts, laid, h⟩ := read
  obtain ⟨found, eq, whole, spells⟩ := h.separated_made (n := n) (by simp [laid]) (by simp [laid])
    fun _ _ => directiveLocation_made
  obtain ⟨present, all⟩ := Bool.and_eq_true_iff.mp whole
  obtain ⟨names, rfl⟩ := exists_map_some all
  have own : n.ownSuperfluous = n.leadingMark .bar .directiveLocation := by
    rw [laid]
    rfl
  refine ⟨names, ?_, by simpa [listWhole] using whole, .ofParts laid ?_⟩
  · rw [directiveLocations, Node.withPresent, eq]
    simp [Except.map]
  · simpa [own, optionSigns] using spells

/-- A directive definition is written as its description, its name, its parameters, whether it may
    be repeated, and its locations. -/
theorem DirectiveDefinition.ofNode_made (read : ReadFrom .directiveDefinition n taken) :
    Made DirectiveDefinition.signs DirectiveDefinition.isWhole n taken
      (DirectiveDefinition.ofNode n) := by
  obtain ⟨parts, laid, h⟩ := read
  obtain ⟨s?, _, _, _, rfl, rfl, described, h⟩ := h.row_optional
  obtain ⟨t, _, _, rfl, rfl, met, spelled, h⟩ := h.row_token
  obtain ⟨at', _, _, rfl, rfl, metAt, spelledAt, h⟩ := h.row_token
  obtain ⟨t', _, _, rfl, rfl, met', spelled', h⟩ := h.row_token
  obtain ⟨as?, _, _, _, rfl, rfl, argued, h⟩ := h.row_optional
  obtain ⟨on, _, _, rfl, rfl, metOn, spelledOn, h⟩ := h.row_token
  obtain ⟨c, _, _, _, rfl, rfl, located, h⟩ := h.row_call
  obtain ⟨rfl, rfl⟩ := h.row_nil
  obtain ⟨description, hdesc, spellsDesc⟩ :=
    StringValue.description_made (n := n) described (by simp [laid])
  have name : Name.ofNode Category.name n = .ok (.ofToken t') := Name.ofNode_eq (by simp [laid])
  obtain ⟨arguments, hargs, wholeArgs, -, spellsArgs⟩ :=
    argued.listWithin (n := n) (by simp [laid]) rfl InputValueDefinition.arguments_made
  obtain ⟨locations, hlocations, wholeLocations, spellsLocations⟩ :=
    located.withRequired (n := n) (by simp [laid]) fun _ _ => directiveLocations_made
  refine ⟨⟨description, .ofToken t', arguments, locations, n.span⟩,
    by rw [DirectiveDefinition.ofNode, hdesc, name, hargs, hlocations]; rfl, ?_,
    .plain laid ?_ fun _ => rfl⟩
  · simp [DirectiveDefinition.isWhole, Name.isWhole_ofToken spelled', wholeArgs,
      (Bool.and_eq_true_iff.mp wholeLocations).2]
  · simpa [DirectiveDefinition.signs] using spellsDesc.append
      (.cons (spelled.sign_of_word met) (.cons (spelledAt.sign_of_mark metAt)
        (.cons (Name.sign_ofToken spelled' met' (by decide)) (spellsArgs.append
          (.cons (spelledOn.sign_of_word metOn) spellsLocations)))))

end GraphQL
