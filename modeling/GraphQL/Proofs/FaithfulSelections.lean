/-
  Directives and selections are faithful.

  Optional clauses and lists come in here.  A list that is left out and one that is empty would be
  the same in a document, but the lists of the grammar are never empty where they are there; that
  goes with what is made of them (`listWhole`).
-/
import GraphQL.Proofs.FaithfulValues

namespace GraphQL

variable {r : Rule} {n : Node} {taken : List Token} {c? : Option Node}

/-! ## Arguments and directives -/

/-- An argument is written as its name, a colon and its value. -/
theorem Argument.ofNode_made (read : ReadFrom .argument n taken) :
    Made Argument.signs Argument.isWhole n taken (Argument.ofNode n) := by
  obtain ⟨parts, laid, h⟩ := read
  obtain ⟨t, _, _, rfl, rfl, met, spelled, h⟩ := h.row_token
  obtain ⟨colon, _, _, rfl, rfl, metColon, spelledColon, h⟩ := h.row_token
  obtain ⟨c, inner, _, _, rfl, rfl, read, h⟩ := h.row_call
  obtain ⟨rfl, rfl⟩ := h.row_nil
  have name : Name.ofNode Category.name n = .ok (.ofToken t) := Name.ofNode_eq (by simp [laid])
  obtain ⟨v, value, whole, spells⟩ := Value.within_made (n := n) read (by simp [laid])
  refine ⟨⟨.ofToken t, v, n.span⟩, by rw [Argument.ofNode, name, value]; rfl, ?_,
    .plain laid ?_ fun _ => rfl⟩
  · simp [Argument.isWhole, Name.isWhole_ofToken spelled, whole]
  · simpa [Argument.signs] using Spells.cons (Name.sign_ofToken spelled met (by decide))
      (.cons (spelledColon.sign_of_mark metColon) spells)

theorem Argument.allWithin_made (read : ReadFrom .arguments n taken) :
    Made argumentsSigns (listWhole Argument.isWhole) n taken (Argument.allWithin n) :=
  read.between rfl (fun _ => rfl) fun _ _ => Argument.ofNode_made

/-- A directive is written as an at sign, its name and its arguments. -/
theorem Directive.ofNode_made (read : ReadFrom .directive n taken) :
    Made Directive.signs Directive.isWhole n taken (Directive.ofNode n) := by
  obtain ⟨parts, laid, h⟩ := read
  obtain ⟨at', _, _, rfl, rfl, metAt, spelledAt, h⟩ := h.row_token
  obtain ⟨t, _, _, rfl, rfl, met, spelled, h⟩ := h.row_token
  obtain ⟨as, inner, _, _, rfl, rfl, arguments, h⟩ := h.row_optional
  obtain ⟨rfl, rfl⟩ := h.row_nil
  have name : Name.ofNode Category.name n = .ok (.ofToken t) := Name.ofNode_eq (by simp [laid])
  obtain ⟨arguments, eq, whole, -, spells⟩ :=
    arguments.listWithin (n := n) (by simp [laid]) rfl Argument.allWithin_made
  refine ⟨⟨.ofToken t, arguments, n.span⟩, by rw [Directive.ofNode, name, eq]; rfl, ?_,
    .plain laid ?_ fun _ => rfl⟩
  · simp [Directive.isWhole, Name.isWhole_ofToken spelled, whole]
  · simpa [Directive.signs] using Spells.cons (spelledAt.sign_of_mark metAt)
      (.cons (Name.sign_ofToken spelled met (by decide)) spells)

/-- Directives are written one after the other. -/
theorem Directive.allWithin_made (read : ReadFrom .directives n taken) :
    Made directivesSigns (listWhole Directive.isWhole) n taken (Directive.allWithin n) := by
  obtain ⟨parts, laid, h⟩ := read
  obtain ⟨c, cs, rfl, all⟩ := h.of_atLeastOne
  obtain ⟨ds, eq, whole, count, spells⟩ :=
    all.withEach (n := n) (by simp [laid]) fun _ _ => Directive.ofNode_made
  refine ⟨ds, eq, ?_, .plain laid (by simpa [directivesSigns] using spells) fun _ => rfl⟩
  cases ds with
  | nil => cases count
  | cons d ds => simpa [listWhole] using whole

/-- The directives that may be attached to what is read. -/
theorem Directive.attached_made (read : ReadOptional .directives c? taken)
    (held : n.nodes .directives = c?.toList) :
    ∃ ds, Directive.attached n = .ok ds ∧ ds.all Directive.isWhole = true ∧
      ds.isEmpty = c?.isNone ∧
      Spells taken (c?.toList.flatMap Node.superfluous) (directivesSigns ds) :=
  read.listWithin held rfl Directive.allWithin_made

/-! ## Fragments by name -/

/-- The name of a fragment that must be there. -/
theorem fragmentName_made {c : Node} (read : ReadFrom .fragmentName c taken)
    (held : n.nodes .fragmentName = [c]) :
    ∃ name, fragmentName n = .ok name ∧ name.isWhole = true ∧
      Spells taken c.superfluous [name.sign] := by
  obtain ⟨name, eq, whole, spells⟩ := read.withRequired held fun _ _ read =>
    Name.made_of_single (c := .nameButOn) (by decide) read rfl fun _ => rfl
  exact ⟨name, by rw [fragmentName, eq]; rfl, whole, spells⟩

/-- A spread is written as three dots, the name of its fragment and its directives. -/
theorem FragmentSpread.ofNode_made (read : ReadFrom .fragmentSpread n taken) :
    Made FragmentSpread.signs FragmentSpread.isWhole n taken (FragmentSpread.ofNode n) := by
  obtain ⟨parts, laid, h⟩ := read
  obtain ⟨t, _, _, rfl, rfl, met, spelled, h⟩ := h.row_token
  obtain ⟨c, inner, _, _, rfl, rfl, named, h⟩ := h.row_call
  obtain ⟨ds, behind, _, _, rfl, rfl, directed, h⟩ := h.row_optional
  obtain ⟨rfl, rfl⟩ := h.row_nil
  obtain ⟨name, hname, wholeName, spellsName⟩ := fragmentName_made (n := n) named (by simp [laid])
  obtain ⟨directives, hds, wholeDs, -, spellsDs⟩ :=
    Directive.attached_made (n := n) directed (by simp [laid])
  refine ⟨⟨name, directives, n.span⟩, by rw [FragmentSpread.ofNode, hname, hds]; rfl, ?_,
    .plain laid ?_ fun _ => rfl⟩
  · simp [FragmentSpread.isWhole, wholeName, wholeDs]
  · simpa [FragmentSpread.signs] using
      Spells.cons (spelled.sign_of_mark met) (spellsName.append spellsDs)

/-! ## Selections -/

/-- The alias of a field. -/
theorem alias_made (read : ReadFrom .alias n taken) :
    Made aliasSigns Name.isWhole n taken (Name.ofNode Category.name n) := by
  obtain ⟨parts, laid, h⟩ := read
  obtain ⟨t, _, _, rfl, rfl, met, spelled, h⟩ := h.row_token
  obtain ⟨colon, _, _, rfl, rfl, metColon, spelledColon, h⟩ := h.row_token
  obtain ⟨rfl, rfl⟩ := h.row_nil
  refine ⟨.ofToken t, Name.ofNode_eq (by simp [laid]), Name.isWhole_ofToken spelled,
    .plain laid ?_ fun _ => rfl⟩
  exact .cons (Name.sign_ofToken spelled met (by decide)) (.token (spelledColon.sign_of_mark metColon))

/-- The type that a fragment is bound to. -/
theorem typeCondition_made (read : ReadFrom .typeCondition n taken) :
    Made typeConditionSigns NamedType.isWhole n taken (NamedType.within n) := by
  obtain ⟨parts, laid, h⟩ := read
  obtain ⟨t, _, _, rfl, rfl, met, spelled, h⟩ := h.row_token
  obtain ⟨c, inner, _, _, rfl, rfl, read, h⟩ := h.row_call
  obtain ⟨rfl, rfl⟩ := h.row_nil
  obtain ⟨type, eq, whole, spells⟩ := NamedType.within_made (n := n) read (by simp [laid])
  refine ⟨type, eq, whole, .plain laid ?_ fun _ => rfl⟩
  simpa [typeConditionSigns] using Spells.cons (spelled.sign_of_word met) spells

mutual

/-- A selection is the field, the spread or the inline fragment that its child stands for. -/
theorem Selection.ofNode_made (n : Node) {taken : List Token} (read : ReadFrom .selection n taken) :
    Chosen Selection.signs Selection.isWhole n taken (Selection.ofNode n) := by
  obtain ⟨parts, laid, h⟩ := read
  obtain ⟨q, hq, c, rfl, read⟩ := h.of_rules [.field, .fragmentSpread, .inlineFragment]
  simp only [List.mem_cons, List.not_mem_nil, or_false] at hq
  rw [Selection.ofNode]
  refine withChosen_made laid (fun _ => rfl) fun hc => ?_
  rcases hq with rfl | rfl | rfl
  · exact ⟨_, fun _ => by simp only [read.rule_eq],
      (Field.ofNode_made c read).chosen .field (fun _ => rfl) fun _ => rfl⟩
  · exact ⟨_, fun _ => by simp only [read.rule_eq],
      (FragmentSpread.ofNode_made read).chosen .spread (fun _ => rfl) fun _ => rfl⟩
  · exact ⟨_, fun _ => by simp only [read.rule_eq],
      (InlineFragment.ofNode_made c read).chosen .inline (fun _ => rfl) fun _ => rfl⟩
termination_by sizeOf n
decreasing_by all_goals exact Node.sizeOf_lt_of_mem_children ‹_›

/-- A field is written as its alias and a colon, its name, its arguments, its directives and its
    selections. -/
theorem Field.ofNode_made (n : Node) {taken : List Token} (read : ReadFrom .field n taken) :
    Made Field.signs Field.isWhole n taken (Field.ofNode n) := by
  obtain ⟨parts, laid, h⟩ := read
  -- the row, item by item
  obtain ⟨a?, _, _, _, rfl, rfl, aliased, h⟩ := h.row_optional
  obtain ⟨t, _, _, rfl, rfl, met, spelled, h⟩ := h.row_token
  obtain ⟨as?, _, _, _, rfl, rfl, argued, h⟩ := h.row_optional
  obtain ⟨ds?, _, _, _, rfl, rfl, directed, h⟩ := h.row_optional
  obtain ⟨s?, _, _, _, rfl, rfl, selected, h⟩ := h.row_optional
  obtain ⟨rfl, rfl⟩ := h.row_nil
  -- what is made of the items
  obtain ⟨aliasName, halias, wholeAlias, -, spellsAlias⟩ :=
    aliased.withFirst (n := n) (by simp [laid]) fun _ _ => alias_made
  have name : Name.ofNode Category.name n = .ok (.ofToken t) := Name.ofNode_eq (by simp [laid])
  obtain ⟨arguments, hargs, wholeArgs, -, spellsArgs⟩ :=
    argued.listWithin (n := n) (by simp [laid]) rfl Argument.allWithin_made
  obtain ⟨directives, hds, wholeDs, -, spellsDs⟩ :=
    Directive.attached_made (n := n) directed (by simp [laid])
  obtain ⟨selectionSet, hset, wholeSet, -, spellsSet⟩ :=
    selected.withFirst (n := n) (by simp [laid]) fun c _ => SelectionSet.ofNode_made c
  refine ⟨⟨aliasName, .ofToken t, arguments, directives, selectionSet, n.span⟩,
    by rw [Field.ofNode, halias, name, hargs, hds, hset]; rfl, ?_, .plain laid ?_ fun _ => rfl⟩
  · -- nothing is missing
    simp [Field.isWhole, SelectionSet.optionWhole_eq, Name.isWhole_ofToken spelled, *]
  · -- the signs stand in the order of the row
    simpa [Field.signs, SelectionSet.optionSigns_eq] using
      spellsAlias.append (.cons (Name.sign_ofToken spelled met (by decide))
        (spellsArgs.append (spellsDs.append spellsSet)))
termination_by sizeOf n
decreasing_by all_goals exact Node.sizeOf_lt_of_mem_children ‹_›

/-- An inline fragment is written as three dots, its type condition, its directives and its
    selections. -/
theorem InlineFragment.ofNode_made (n : Node) {taken : List Token}
    (read : ReadFrom .inlineFragment n taken) :
    Made InlineFragment.signs InlineFragment.isWhole n taken (InlineFragment.ofNode n) := by
  obtain ⟨parts, laid, h⟩ := read
  obtain ⟨t, _, _, rfl, rfl, met, spelled, h⟩ := h.row_token
  obtain ⟨c?, _, _, _, rfl, rfl, bound, h⟩ := h.row_optional
  obtain ⟨ds?, _, _, _, rfl, rfl, directed, h⟩ := h.row_optional
  obtain ⟨s, _, _, _, rfl, rfl, selected, h⟩ := h.row_call
  obtain ⟨rfl, rfl⟩ := h.row_nil
  obtain ⟨condition, hcond, wholeCond, -, spellsCond⟩ :=
    bound.withFirst (n := n) (by simp [laid]) fun _ _ => typeCondition_made
  obtain ⟨directives, hds, wholeDs, -, spellsDs⟩ :=
    Directive.attached_made (n := n) directed (by simp [laid])
  obtain ⟨selectionSet, hset, wholeSet, spellsSet⟩ :=
    selected.withRequired (n := n) (by simp [laid]) fun c _ => SelectionSet.ofNode_made c
  refine ⟨⟨condition, directives, selectionSet, n.span⟩,
    by rw [InlineFragment.ofNode, hcond, hds, hset]; rfl, ?_, .plain laid ?_ fun _ => rfl⟩
  · simp [InlineFragment.isWhole, *]
  · simpa [InlineFragment.signs] using Spells.cons (spelled.sign_of_mark met)
      (spellsCond.append (spellsDs.append spellsSet))
termination_by sizeOf n
decreasing_by all_goals exact Node.sizeOf_lt_of_mem_children ‹_›

/-- A selection set is written as its selections between braces. -/
theorem SelectionSet.ofNode_made (n : Node) {taken : List Token}
    (read : ReadFrom .selectionSet n taken) :
    Made SelectionSet.signs SelectionSet.isWhole n taken (SelectionSet.ofNode n) := by
  obtain ⟨parts, laid, h⟩ := read
  obtain ⟨t, _, _, rfl, rfl, met, spelled, h⟩ := h.row_token
  obtain ⟨c, cs, inner, _, _, rfl, rfl, all, h⟩ := h.row_atLeastOne
  obtain ⟨t', _, _, rfl, rfl, met', spelled', h⟩ := h.row_token
  obtain ⟨rfl, rfl⟩ := h.row_nil
  obtain ⟨selections, eq, whole, count, spells⟩ := all.withPresent (n := n) (by simp [laid])
    fun c _ _ => Selection.ofNode_made c
  refine ⟨⟨selections, n.span⟩, by rw [SelectionSet.ofNode, eq]; rfl, ?_,
    .plain laid ?_ fun _ => rfl⟩
  · cases selections with
    | nil => cases count
    | cons s rest => rwa [SelectionSet.isWhole, Selection.allWhole_eq]
  · simpa [SelectionSet.signs, Selection.allSigns_eq] using
      Spells.between (spelled.sign_of_mark met) (spelled'.sign_of_mark met') spells
termination_by sizeOf n
decreasing_by all_goals exact Node.sizeOf_lt_of_mem_children ‹_›

end

/-- The selection set that must be there. -/
theorem SelectionSet.within_made {c : Node} (read : ReadFrom .selectionSet c taken)
    (held : n.nodes .selectionSet = [c]) :
    ∃ s, SelectionSet.within n = .ok s ∧ s.isWhole = true ∧ Spells taken c.superfluous s.signs := by
  obtain ⟨s, eq, whole, spells⟩ := read.withRequired held fun c _ => SelectionSet.ofNode_made c
  exact ⟨s, by rw [within, eq]; rfl, whole, spells⟩

end GraphQL
