/-
  Definitions are faithful.

  Operations, fragments, and the parts that definitions of types are made of.  A default value or a
  description comes as an option of an option, from the rule that may be absent and from its maker
  that may come to nothing; both are joined (`ReadOptional.withFirst_join`).

  Here is the keyword that may be left out: it is superfluous just where the operation that is made
  could be written as a selection set (`OperationDefinition.isBare`).
-/
import GraphQL.Document.OfTree.Definition
import GraphQL.Proofs.FaithfulSelections

namespace GraphQL

variable {r : Rule} {n : Node} {taken : List Token} {c? : Option Node}

/-! ## Operations and fragments -/

/-- The kind of an operation is that of the one word taken. -/
theorem OperationKind.ofNode_made (read : ReadFrom .operationType n taken) :
    ∃ kind t, OperationKind.ofNode n = .ok kind ∧ taken = [t] ∧ t.sign = kind.word.sign ∧
      n.superfluous = [] ∧ n.tokens Word.query = if kind = .query then [t] else [] := by
  obtain ⟨parts, laid, h⟩ := read
  obtain ⟨p, hp, h⟩ := h.of_choice
  -- whichever alternative it is, it is the word of a kind
  obtain ⟨kind, rfl⟩ : ∃ kind : OperationKind, p = Standard.word kind.word := by
    have hp : p ∈ [Standard.word .query, Standard.word .mutation, Standard.word .subscription] := hp
    simp only [List.mem_cons, List.not_mem_nil, or_false] at hp
    rcases hp with rfl | rfl | rfl
    · exact ⟨.query, rfl⟩
    · exact ⟨.mutation, rfl⟩
    · exact ⟨.subscription, rfl⟩
  obtain ⟨t, rfl, rfl, met, spelled⟩ := h.of_token
  subst laid
  refine ⟨kind, t, ?_, rfl, spelled.sign_of_word met, ?_, ?_⟩
  · cases kind <;> rfl
  · cases kind <;> rfl
  · cases kind <;> simp [OperationKind.word]

/-- A default value. -/
theorem defaultValue_made (read : ReadFrom .defaultValue n taken) :
    Chosen defaultSigns Value.isWhole n taken (Value.within n) := by
  obtain ⟨parts, laid, h⟩ := read
  obtain ⟨t, _, _, rfl, rfl, met, spelled, h⟩ := h.row_token
  obtain ⟨c, inner, _, _, rfl, rfl, read, h⟩ := h.row_call
  obtain ⟨rfl, rfl⟩ := h.row_nil
  obtain ⟨v, eq, whole, spells⟩ := Value.within_made (n := n) read (by simp [laid])
  refine ⟨some v, eq, whole, .plain laid ?_ fun _ => rfl⟩
  simpa [optionSigns, defaultSigns] using Spells.cons (spelled.sign_of_mark met) spells

/-- The default value that may be given. -/
theorem givenDefault_made (read : ReadOptional .defaultValue c? taken)
    (held : n.nodes .defaultValue = c?.toList) :
    ∃ v?, givenDefault n = .ok v? ∧ v?.all Value.isWhole = true ∧
      Spells taken (c?.toList.flatMap Node.superfluous) (optionSigns defaultSigns v?) := by
  obtain ⟨v??, eq, whole, spells⟩ := read.withFirst_join held fun _ _ => defaultValue_made
  exact ⟨v??.join, by rw [givenDefault, eq]; rfl, whole, spells⟩

/-- A variable definition is written as its variable, a colon, its type and its default. -/
theorem VariableDefinition.ofNode_made (read : ReadFrom .variableDefinition n taken) :
    Made VariableDefinition.signs VariableDefinition.isWhole n taken
      (VariableDefinition.ofNode n) := by
  obtain ⟨parts, laid, h⟩ := read
  -- the row, item by item
  obtain ⟨v, _, _, _, rfl, rfl, declared, h⟩ := h.row_call
  obtain ⟨t, _, _, rfl, rfl, met, spelled, h⟩ := h.row_token
  obtain ⟨c, _, _, _, rfl, rfl, typed, h⟩ := h.row_call
  obtain ⟨d?, _, _, _, rfl, rfl, defaulted, h⟩ := h.row_optional
  obtain ⟨rfl, rfl⟩ := h.row_nil
  -- what is made of the items
  obtain ⟨declaredVar, declared, wholeV, spellsV⟩ :=
    declared.withRequired (n := n) (by simp [laid]) fun _ _ => Variable.ofNode_made
  obtain ⟨type, typed, wholeType, spellsType⟩ :=
    TypeReference.within_made (n := n) typed (by simp [laid])
  obtain ⟨default, hdefault, wholeDefault, spellsDefault⟩ :=
    givenDefault_made (n := n) defaulted (by simp [laid])
  refine ⟨⟨declaredVar, type, default, n.span⟩,
    by rw [VariableDefinition.ofNode, declared, typed, hdefault]; rfl, ?_,
    .plain laid ?_ fun _ => rfl⟩
  · -- nothing is missing
    simp [VariableDefinition.isWhole, *]
  · -- the signs stand in the order of the row
    simpa [VariableDefinition.signs] using
      spellsV.append (.cons (spelled.sign_of_mark met) (spellsType.append spellsDefault))

theorem VariableDefinition.allWithin_made (read : ReadFrom .variableDefinitions n taken) :
    Made variableDefinitionsSigns (listWhole VariableDefinition.isWhole) n taken
      (VariableDefinition.allWithin n) :=
  read.between rfl (fun _ => rfl) fun _ _ => VariableDefinition.ofNode_made

/-- An operation that is a mere selection set. -/
theorem OperationDefinition.made_of_selectionSet {c : Node}
    (laid : n = .ofParts .operationDefinition (nodeParts .selectionSet [c]) false)
    (selected : ReadFrom .selectionSet c taken) :
    Made OperationDefinition.signs OperationDefinition.isWhole n taken
      (OperationDefinition.ofNode n) := by
  obtain ⟨selectionSet, hset, whole, spells⟩ :=
    SelectionSet.within_made (n := n) selected (by simp [laid])
  -- there is nothing else than the selection set
  have unnamed : n.token? Category.name = none := by simp [laid]
  have own : n.ownSuperfluous = [] := by
    rw [laid]
    rfl
  refine ⟨⟨.query, none, [], [], selectionSet, n.span⟩, ?_, by simpa [isWhole] using whole,
    .ofParts laid ?_⟩
  · rw [OperationDefinition.ofNode, withFirst_eq_none (by simp [laid]), unnamed,
      listWithin_eq_nil (by simp [laid]), Directive.attached, listWithin_eq_nil (by simp [laid]),
      hset]
    rfl
  · simpa [own, signs, isBare] using spells

/-- An operation is written with its keyword, unless it is bare; the keyword of a bare one is
    superfluous. -/
theorem OperationDefinition.ofNode_made (read : ReadFrom .operationDefinition n taken) :
    Made OperationDefinition.signs OperationDefinition.isWhole n taken
      (OperationDefinition.ofNode n) := by
  obtain ⟨parts, laid, h⟩ := read
  obtain ⟨p, hp, h⟩ := h.of_choice
  rcases List.mem_pair.mp hp with rfl | rfl
  · obtain ⟨c, rfl, selected⟩ := h.of_call
    exact made_of_selectionSet laid selected
  · obtain ⟨k, _, _, _, rfl, rfl, kinded, h⟩ := h.row_call
    obtain ⟨t?, _, _, rfl, rfl, named, h⟩ := h.row_optionalToken
    obtain ⟨vs?, _, _, _, rfl, rfl, declared, h⟩ := h.row_optional
    obtain ⟨ds?, _, _, _, rfl, rfl, directed, h⟩ := h.row_optional
    obtain ⟨s, _, _, _, rfl, rfl, selected, h⟩ := h.row_call
    obtain ⟨rfl, rfl⟩ := h.row_nil
    obtain ⟨kind, t, hkind, rfl, sign, spareKind, keyword⟩ := OperationKind.ofNode_made kinded
    obtain ⟨vs, hvars, wholeVars, bareVars, spellsVars⟩ :=
      declared.listWithin (n := n) (by simp [laid]) rfl VariableDefinition.allWithin_made
    obtain ⟨directives, hds, wholeDs, bareDs, spellsDs⟩ :=
      Directive.attached_made (n := n) directed (by simp [laid])
    obtain ⟨selectionSet, hset, wholeSet, spellsSet⟩ :=
      SelectionSet.within_made (n := n) selected (by simp [laid])
    have hoperation : n.withFirst .operationType (fun c _ => OperationKind.ofNode c)
        = .ok (some kind) := withFirst_eq_some (by simp [laid]) fun _ => hkind
    have hname : n.token? Category.name = t?  := by cases t? <;> simp [laid]
    obtain ⟨o, ho⟩ : ∃ o : OperationDefinition,
      o = ⟨kind, t?.map .ofToken, vs, directives, selectionSet, n.span⟩ := ⟨_, rfl⟩
    -- the keyword is superfluous just where the signs leave it out
    have own : n.ownSuperfluous = if o.isBare then [t] else [] := by
      rw [show n.ownSuperfluous = n.bareKeyword by rw [laid]; rfl]
      simp only [Node.bareKeyword, isBare, ho, bareVars, bareDs]
      cases kind <;> cases t? <;> cases vs? <;> cases ds? <;> simp [laid, keyword]
    have head : Spells [t] (if o.isBare then [t] else [])
        (if o.isBare then [] else [kind.word.sign]) := by
      split
      · exact .drop t
      · exact .token sign
    have spellsName : Spells t?.toList [] (optionSigns (fun n : Name => [n.sign]) o.name) := by
      subst ho
      cases t? with
      | none => exact .nil
      | some t => exact .token (Name.sign_ofToken (named t rfl).2 (named t rfl).1 (by decide))
    refine ⟨o, ?_, ?_, .ofParts laid ?_⟩
    · rw [OperationDefinition.ofNode, hoperation, hname, hvars, hds, hset, ho]
      rfl
    · have wholeName : (t?.map Name.ofToken).all Name.isWhole = true := by
        cases t? with
        | none => rfl
        | some t => exact Name.isWhole_ofToken (named t rfl).2
      simp [isWhole, *]
    · have all := head.append (spellsName.append (spellsVars.append (spellsDs.append spellsSet)))
      rw [signs_eq, own]
      subst ho
      simpa [spareKind] using all

/-- A fragment is written as its word, its name, its variables, its type condition, its directives
    and its selections. -/
theorem FragmentDefinition.ofNode_made (read : ReadFrom .fragmentDefinition n taken) :
    Made FragmentDefinition.signs FragmentDefinition.isWhole n taken
      (FragmentDefinition.ofNode n) := by
  obtain ⟨parts, laid, h⟩ := read
  obtain ⟨t, _, _, rfl, rfl, met, spelled, h⟩ := h.row_token
  obtain ⟨f, _, _, _, rfl, rfl, named, h⟩ := h.row_call
  obtain ⟨c, _, _, _, rfl, rfl, bound, h⟩ := h.row_call
  obtain ⟨ds?, _, _, _, rfl, rfl, directed, h⟩ := h.row_optional
  obtain ⟨s, _, _, _, rfl, rfl, selected, h⟩ := h.row_call
  obtain ⟨rfl, rfl⟩ := h.row_nil
  obtain ⟨name, hname, wholeName, spellsName⟩ := fragmentName_made (n := n) named (by simp [laid])
  obtain ⟨condition, hcond, wholeCond, spellsCond⟩ :=
    bound.withRequired (n := n) (by simp [laid]) fun _ _ => typeCondition_made
  obtain ⟨directives, hds, wholeDs, -, spellsDs⟩ :=
    Directive.attached_made (n := n) directed (by simp [laid])
  obtain ⟨selectionSet, hset, wholeSet, spellsSet⟩ :=
    SelectionSet.within_made (n := n) selected (by simp [laid])
  refine ⟨⟨name, none, condition, directives, selectionSet, n.span⟩, ?_, ?_,
    .plain laid ?_ fun _ => rfl⟩
  · rw [FragmentDefinition.ofNode, hname, withFirst_eq_none (by simp [laid]), hcond, hds, hset]
    rfl
  · simp [FragmentDefinition.isWhole, *]
  · simpa [FragmentDefinition.signs, optionSigns] using Spells.cons (spelled.sign_of_word met)
      (spellsName.append (spellsCond.append (spellsDs.append spellsSet)))

/-! ## Parts of type definitions -/

/-- A description is written as its string. -/
theorem StringValue.describing_made (read : ReadFrom .description n taken) :
    Chosen descriptionSigns (fun _ => true) n taken (StringValue.describing n) := by
  obtain ⟨parts, laid, h⟩ := read
  obtain ⟨t, rfl, rfl, met, spelled⟩ := h.of_token
  have found : n.requireToken Category.string = .ok (some t) :=
    Node.requireToken_eq (by simp [laid])
  exact ⟨some (.ofToken t), by rw [describing, found]; rfl, rfl,
    .plain laid (.token (StringValue.sign_ofToken spelled met)) fun _ => rfl⟩

/-- The description that may be there. -/
theorem StringValue.description_made (read : ReadOptional .description c? taken)
    (held : n.nodes .description = c?.toList) :
    ∃ s?, StringValue.description n = .ok s? ∧
      Spells taken (c?.toList.flatMap Node.superfluous) (optionSigns descriptionSigns s?) := by
  obtain ⟨s??, eq, -, spells⟩ := read.withFirst_join held fun _ _ => describing_made
  exact ⟨s??.join, by rw [description, eq]; rfl, spells⟩

/-- An input value is written as its description, its name, a colon, its type, its default and its
    directives. -/
theorem InputValueDefinition.ofNode_made (read : ReadFrom .inputValueDefinition n taken) :
    Made InputValueDefinition.signs InputValueDefinition.isWhole n taken
      (InputValueDefinition.ofNode n) := by
  obtain ⟨parts, laid, h⟩ := read
  obtain ⟨s?, _, _, _, rfl, rfl, described, h⟩ := h.row_optional
  obtain ⟨t, _, _, rfl, rfl, met, spelled, h⟩ := h.row_token
  obtain ⟨colon, _, _, rfl, rfl, metColon, spelledColon, h⟩ := h.row_token
  obtain ⟨c, _, _, _, rfl, rfl, typed, h⟩ := h.row_call
  obtain ⟨d?, _, _, _, rfl, rfl, defaulted, h⟩ := h.row_optional
  obtain ⟨ds?, _, _, _, rfl, rfl, directed, h⟩ := h.row_optional
  obtain ⟨rfl, rfl⟩ := h.row_nil
  obtain ⟨description, hdesc, spellsDesc⟩ :=
    StringValue.description_made (n := n) described (by simp [laid])
  have name : Name.ofNode Category.name n = .ok (.ofToken t) := Name.ofNode_eq (by simp [laid])
  obtain ⟨type, typed, wholeType, spellsType⟩ :=
    TypeReference.within_made (n := n) typed (by simp [laid])
  obtain ⟨default, hdefault, wholeDefault, spellsDefault⟩ :=
    givenDefault_made (n := n) defaulted (by simp [laid])
  obtain ⟨directives, hds, wholeDs, -, spellsDs⟩ :=
    Directive.attached_made (n := n) directed (by simp [laid])
  refine ⟨⟨description, .ofToken t, type, default, directives, n.span⟩,
    by rw [InputValueDefinition.ofNode, hdesc, name, typed, hdefault, hds]; rfl, ?_,
    .plain laid ?_ fun _ => rfl⟩
  · simp [InputValueDefinition.isWhole, Name.isWhole_ofToken spelled, *]
  · simpa [InputValueDefinition.signs] using
      spellsDesc.append (.cons (Name.sign_ofToken spelled met (by decide))
        (.cons (spelledColon.sign_of_mark metColon)
          (spellsType.append (spellsDefault.append spellsDs))))

theorem InputValueDefinition.arguments_made (read : ReadFrom .argumentsDefinition n taken) :
    Made argumentsDefinitionSigns (listWhole InputValueDefinition.isWhole) n taken
      (InputValueDefinition.allWithin n) :=
  read.between rfl (fun _ => rfl) fun _ _ => InputValueDefinition.ofNode_made

theorem InputValueDefinition.fields_made (read : ReadFrom .inputFieldsDefinition n taken) :
    Made inputFieldsSigns (listWhole InputValueDefinition.isWhole) n taken
      (InputValueDefinition.allWithin n) :=
  read.between rfl (fun _ => rfl) fun _ _ => InputValueDefinition.ofNode_made

/-- A field definition is written as its description, its name, its parameters, a colon, its type
    and its directives. -/
theorem FieldDefinition.ofNode_made (read : ReadFrom .fieldDefinition n taken) :
    Made FieldDefinition.signs FieldDefinition.isWhole n taken (FieldDefinition.ofNode n) := by
  obtain ⟨parts, laid, h⟩ := read
  obtain ⟨s?, _, _, _, rfl, rfl, described, h⟩ := h.row_optional
  obtain ⟨t, _, _, rfl, rfl, met, spelled, h⟩ := h.row_token
  obtain ⟨as?, _, _, _, rfl, rfl, argued, h⟩ := h.row_optional
  obtain ⟨colon, _, _, rfl, rfl, metColon, spelledColon, h⟩ := h.row_token
  obtain ⟨c, _, _, _, rfl, rfl, typed, h⟩ := h.row_call
  obtain ⟨ds?, _, _, _, rfl, rfl, directed, h⟩ := h.row_optional
  obtain ⟨rfl, rfl⟩ := h.row_nil
  obtain ⟨description, hdesc, spellsDesc⟩ :=
    StringValue.description_made (n := n) described (by simp [laid])
  have name : Name.ofNode Category.name n = .ok (.ofToken t) := Name.ofNode_eq (by simp [laid])
  obtain ⟨arguments, hargs, wholeArgs, -, spellsArgs⟩ :=
    argued.listWithin (n := n) (by simp [laid]) rfl InputValueDefinition.arguments_made
  obtain ⟨type, typed, wholeType, spellsType⟩ :=
    TypeReference.within_made (n := n) typed (by simp [laid])
  obtain ⟨directives, hds, wholeDs, -, spellsDs⟩ :=
    Directive.attached_made (n := n) directed (by simp [laid])
  refine ⟨⟨description, .ofToken t, arguments, type, directives, n.span⟩,
    by rw [FieldDefinition.ofNode, hdesc, name, hargs, typed, hds]; rfl, ?_,
    .plain laid ?_ fun _ => rfl⟩
  · simp [FieldDefinition.isWhole, Name.isWhole_ofToken spelled, *]
  · simpa [FieldDefinition.signs] using
      spellsDesc.append (.cons (Name.sign_ofToken spelled met (by decide))
        (spellsArgs.append (.cons (spelledColon.sign_of_mark metColon)
          (spellsType.append spellsDs))))

theorem FieldDefinition.allWithin_made (read : ReadFrom .fieldsDefinition n taken) :
    Made fieldsSigns (listWhole FieldDefinition.isWhole) n taken (FieldDefinition.allWithin n) :=
  read.between rfl (fun _ => rfl) fun _ _ => FieldDefinition.ofNode_made

/-- An enumeration value is written as its description, its name and its directives. -/
theorem EnumValueDefinition.ofNode_made (read : ReadFrom .enumValueDefinition n taken) :
    Made EnumValueDefinition.signs EnumValueDefinition.isWhole n taken
      (EnumValueDefinition.ofNode n) := by
  obtain ⟨parts, laid, h⟩ := read
  obtain ⟨s?, _, _, _, rfl, rfl, described, h⟩ := h.row_optional
  obtain ⟨c, _, _, _, rfl, rfl, named, h⟩ := h.row_call
  obtain ⟨ds?, _, _, _, rfl, rfl, directed, h⟩ := h.row_optional
  obtain ⟨rfl, rfl⟩ := h.row_nil
  obtain ⟨description, hdesc, spellsDesc⟩ :=
    StringValue.description_made (n := n) described (by simp [laid])
  obtain ⟨name, hname, wholeName, spellsName⟩ :=
    named.withRequired (n := n) (by simp [laid]) fun _ _ read =>
      Name.made_of_single (c := .nameButLiteral) (by decide) read rfl fun _ => rfl
  obtain ⟨directives, hds, wholeDs, -, spellsDs⟩ :=
    Directive.attached_made (n := n) directed (by simp [laid])
  refine ⟨⟨description, name, directives, n.span⟩,
    by rw [EnumValueDefinition.ofNode, hname, hdesc, hds]; rfl, ?_, .plain laid ?_ fun _ => rfl⟩
  · simp [EnumValueDefinition.isWhole, *]
  · simpa [EnumValueDefinition.signs] using spellsDesc.append (spellsName.append spellsDs)

theorem EnumValueDefinition.allWithin_made (read : ReadFrom .enumValuesDefinition n taken) :
    Made enumValuesSigns (listWhole EnumValueDefinition.isWhole) n taken
      (EnumValueDefinition.allWithin n) :=
  read.between rfl (fun _ => rfl) fun _ _ => EnumValueDefinition.ofNode_made

/-! ## Schemas -/

/-- The type of an operation is written as the word of the kind, a colon and the type. -/
theorem OperationTypeDefinition.ofNode_made (read : ReadFrom .operationTypeDefinition n taken) :
    Made OperationTypeDefinition.signs OperationTypeDefinition.isWhole n taken
      (OperationTypeDefinition.ofNode n) := by
  obtain ⟨parts, laid, h⟩ := read
  obtain ⟨k, _, _, _, rfl, rfl, kinded, h⟩ := h.row_call
  obtain ⟨colon, _, _, rfl, rfl, metColon, spelledColon, h⟩ := h.row_token
  obtain ⟨c, _, _, _, rfl, rfl, typed, h⟩ := h.row_call
  obtain ⟨rfl, rfl⟩ := h.row_nil
  obtain ⟨kind, t, made, rfl, sign, spareKind, -⟩ := OperationKind.ofNode_made kinded
  have hkind : n.withRequired .operationType (fun c _ => OperationKind.ofNode c)
      = .ok (some kind) := withRequired_eq (by simp [laid]) fun _ => made
  obtain ⟨type, htype, wholeType, spellsType⟩ :=
    NamedType.within_made (n := n) typed (by simp [laid])
  refine ⟨⟨kind, type, n.span⟩, by rw [OperationTypeDefinition.ofNode, hkind, htype]; rfl,
    wholeType, .plain laid ?_ fun _ => rfl⟩
  simpa [OperationTypeDefinition.signs, spareKind] using
    Spells.cons sign (.cons (spelledColon.sign_of_mark metColon) spellsType)

theorem OperationTypeDefinition.allWithin_made
    (read : ReadFrom .operationTypeDefinitionList n taken) :
    Made operationTypesSigns (listWhole OperationTypeDefinition.isWhole) n taken
      (OperationTypeDefinition.allWithin n) :=
  read.between rfl (fun _ => rfl) fun _ _ => OperationTypeDefinition.ofNode_made

end GraphQL
