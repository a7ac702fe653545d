/-
  Documents are faithful.

  A text without mistakes is derived as a whole, so it is read from all its tokens, and the document
  that is made of it says all of them but the superfluous ones (`document_says_source`).  What a
  document says does not depend on places; so texts whose documents differ in places only differ in
  nothing else that is essential (`document_faithful`).
-/
import GraphQL.Proofs.BuildingDocument
import GraphQL.Proofs.FaithfulTypes
import GraphQL.Proofs.Soundness

namespace GraphQL

variable {n : Node} {taken : List Token}

/-! ## Definitions -/

namespace Definition

/-- A type definition is what its one child stands for. -/
theorem typeOfNode_made (read : ReadFrom .typeDefinition n taken) :
    Chosen signs isWhole n taken (typeOfNode n) := by
  obtain ⟨parts, laid, h⟩ := read
  obtain ⟨q, hq, c, rfl, read⟩ := h.of_rules (TypeSort.all.map TypeSort.definitionRule)
  obtain ⟨sort, found, rfl⟩ := TypeSort.exists_find hq
  exact withChosen_made laid (fun _ => rfl) fun _ => ⟨_, fun _ => by rw [read.rule_eq, found]; rfl,
    (TypeDefinition.ofNode_made sort read).chosen .type (fun _ => rfl) fun _ => rfl⟩

/-- And so is a type extension. -/
theorem typeExtensionOfNode_made (read : ReadFrom .typeExtension n taken) :
    Chosen signs isWhole n taken (typeExtensionOfNode n) := by
  obtain ⟨parts, laid, h⟩ := read
  obtain ⟨q, hq, c, rfl, read⟩ := h.of_rules (TypeSort.all.map TypeSort.extensionRule)
  obtain ⟨sort, found, rfl⟩ := TypeSort.exists_find hq
  exact withChosen_made laid (fun _ => rfl) fun _ => ⟨_, fun _ => by rw [read.rule_eq, found]; rfl,
    (TypeExtension.ofNode_made sort read).chosen .typeExtension (fun _ => rfl) fun _ => rfl⟩

/-- An executable definition is the operation or the fragment that its child stands for. -/
theorem executableOfNode_made (read : ReadFrom .executableDefinition n taken) :
    Chosen signs isWhole n taken (executableOfNode n) := by
  obtain ⟨parts, laid, h⟩ := read
  obtain ⟨q, hq, c, rfl, read⟩ := h.of_rules [.operationDefinition, .fragmentDefinition]
  refine withChosen_made laid (fun _ => rfl) fun _ => ?_
  rcases List.mem_pair.mp hq with rfl | rfl
  · exact ⟨_, fun _ => by simp only [read.rule_eq],
      (OperationDefinition.ofNode_made read).chosen .operation (fun _ => rfl) fun _ => rfl⟩
  · exact ⟨_, fun _ => by simp only [read.rule_eq],
      (FragmentDefinition.ofNode_made read).chosen .fragment (fun _ => rfl) fun _ => rfl⟩

/-- A definition of the type system is the schema, type or directive that its child stands for. -/
theorem typeSystemOfNode_made (read : ReadFrom .typeSystemDefinition n taken) :
    Chosen signs isWhole n taken (typeSystemOfNode n) := by
  obtain ⟨parts, laid, h⟩ := read
  obtain ⟨q, hq, c, rfl, read⟩ :=
    h.of_rules [.schemaDefinition, .typeDefinition, .directiveDefinition]
  simp only [List.mem_cons, List.not_mem_nil, or_false] at hq
  refine withChosen_made laid (fun _ => rfl) fun _ => ?_
  rcases hq with rfl | rfl | rfl
  · exact ⟨_, fun _ => by simp only [read.rule_eq],
      (SchemaDefinition.ofNode_made read).chosen .schema (fun _ => rfl) fun _ => rfl⟩
  · exact ⟨_, fun _ => by simp only [read.rule_eq], typeOfNode_made read⟩
  · exact ⟨_, fun _ => by simp only [read.rule_eq],
      (DirectiveDefinition.ofNode_made read).chosen .directive (fun _ => rfl) fun _ => rfl⟩

/-- An extension is what its child stands for. -/
theorem typeSystemExtensionOfNode_made (read : ReadFrom .typeSystemExtension n taken) :
    Chosen signs isWhole n taken (typeSystemExtensionOfNode n) := by
  obtain ⟨parts, laid, h⟩ := read
  obtain ⟨q, hq, c, rfl, read⟩ := h.of_rules [.schemaExtension, .typeExtension]
  refine withChosen_made laid (fun _ => rfl) fun _ => ?_
  rcases List.mem_pair.mp hq with rfl | rfl
  · exact ⟨_, fun _ => by simp only [read.rule_eq],
      (SchemaDefinition.extensionOfNode_made read).chosen .schemaExtension (fun _ => rfl)
        fun _ => rfl⟩
  · exact ⟨_, fun _ => by simp only [read.rule_eq], typeExtensionOfNode_made read⟩

/-- A definition is what its child stands for. -/
theorem ofNode_made (read : ReadFrom .definition n taken) :
    Chosen signs isWhole n taken (ofNode n) := by
  obtain ⟨parts, laid, h⟩ := read
  obtain ⟨q, hq, c, rfl, read⟩ :=
    h.of_rules [.executableDefinition, .typeSystemDefinition, .typeSystemExtension]
  simp only [List.mem_cons, List.not_mem_nil, or_false] at hq
  refine withChosen_made laid (fun _ => rfl) fun _ => ?_
  rcases hq with rfl | rfl | rfl
  · exact ⟨_, fun _ => by simp only [read.rule_eq], executableOfNode_made read⟩
  · exact ⟨_, fun _ => by simp only [read.rule_eq], typeSystemOfNode_made read⟩
  · exact ⟨_, fun _ => by simp only [read.rule_eq], typeSystemExtensionOfNode_made read⟩

end Definition

/-! ## Documents -/

/-- A document is written as its definitions, in their order. -/
theorem Document.ofNode_made (read : ReadFrom .document n taken) :
    Made Document.signs Document.isWhole n taken (Document.ofNode n) := by
  obtain ⟨parts, laid, h⟩ := read
  obtain ⟨cs, rfl, all⟩ := h.of_many
  obtain ⟨definitions, eq, whole, -, spells⟩ :=
    all.withPresent (n := n) (by simp [laid]) fun _ _ => Definition.ofNode_made
  exact ⟨⟨definitions, n.span⟩, by rw [Document.ofNode, eq]; rfl, whole,
    .plain laid (by simpa [Document.signs] using spells) fun _ => rfl⟩

/-- A text without mistakes is parsed without mistakes. -/
theorem errors_parse_eq_nil {g : Grammar} {source : String} {file : Option String}
    (valid : (g.readSource source file).hasErrors = false) :
    (g.parse .document (Scan.ofSource source file).tokens).errors = [] := by
  have none := (Bool.or_eq_false_iff.mp valid).2
  simpa [Grammar.readSource, Grammar.readScan] using none

/-- The document of a text without mistakes is whole, and says the essential tokens of the text. -/
theorem document_says_source (source : String) (file : Option String)
    (valid : (Standard.grammar.readSource source file).hasErrors = false) :
    ∃ tree d, (Standard.grammar.readSource source file).tree = some tree ∧
      (Standard.grammar.readSource source file).document = .ok d ∧ d.isWhole = true ∧
      (essentialTokens tree (Scan.ofSource source file).tokens).map Token.sign = d.signs := by
  have clean := errors_parse_eq_nil valid
  have keeps : Standard.grammar.Keeps .tree anywhere := fun _ _ _ _ => trivial
  obtain ⟨tree, derives, htree⟩ :=
    derivation_of_clean Standard.finish_eq Standard.reserved keeps .document _ clean
  have htree : (Standard.grammar.readSource source file).tree = some tree :=
    (tree_readSource ..).trans (htree rfl)
  -- all tokens are spelled, and the derivation takes them all
  obtain ⟨taken, all, h⟩ := derives.matches fun t => spelled_of_mem_ofSource
  obtain rfl : _ = taken := by simpa using all
  obtain ⟨c, hc, read⟩ := h.of_call
  obtain rfl : tree = c := by simpa [nodeParts] using hc
  obtain ⟨d, eq, whole, spells⟩ := Document.ofNode_made read
  refine ⟨tree, d, htree, ?_, whole, ?_⟩
  · rw [Reading.document, htree]
    show Document.ofTree tree = .ok d
    rw [Document.ofTree, if_pos read.rule_eq, eq]
  · exact spells.reads (nodup_of_before (pairwise_tokens_ofSource source file))

/-- The documents of texts without mistakes are faithful.  Nothing is missing in them, at any depth,
    and if two of them are alike without their places, then the texts show the same tokens, save for
    those that are superfluous. -/
theorem document_faithful {g : Grammar} (standard : Standard.grammar? = .ok g)
    (source₁ source₂ : String) (file₁ file₂ : Option String)
    (valid₁ : (g.readSource source₁ file₁).hasErrors = false)
    (valid₂ : (g.readSource source₂ file₂).hasErrors = false) :
    ∃ tree₁ tree₂ d₁ d₂,
      (g.readSource source₁ file₁).tree = some tree₁ ∧
      (g.readSource source₂ file₂).tree = some tree₂ ∧
      (g.readSource source₁ file₁).document = .ok d₁ ∧
      (g.readSource source₂ file₂).document = .ok d₂ ∧
      d₁.isWhole = true ∧ d₂.isWhole = true ∧
      (d₁.unplaced = d₂.unplaced →
        (essentialTokens tree₁ (Scan.ofSource source₁ file₁).tokens).map Token.sign
          = (essentialTokens tree₂ (Scan.ofSource source₂ file₂).tokens).map Token.sign) := by
  obtain rfl : Standard.grammar = g := Except.ok.inj (Standard.grammar?_eq.symm.trans standard)
  obtain ⟨tree₁, d₁, htree₁, hd₁, whole₁, says₁⟩ := document_says_source source₁ file₁ valid₁
  obtain ⟨tree₂, d₂, htree₂, hd₂, whole₂, says₂⟩ := document_says_source source₂ file₂ valid₂
  refine ⟨tree₁, tree₂, d₁, d₂, htree₁, htree₂, hd₁, hd₂, whole₁, whole₂, fun alike => ?_⟩
  rw [says₁, says₂, ← d₁.signs_unplaced, ← d₂.signs_unplaced, alike]

set_option maxRecDepth 100000 in
/-- A selection set alone, and the same as a query with its keyword. -/
theorem document_faithful_bareQuery :
    (Standard.grammar.readSource "\x7ba\x7d").hasErrors = false ∧
      (Standard.grammar.readSource "query\x7ba\x7d").hasErrors = false ∧
      ∃ tree₁ tree₂ d₁ d₂,
        (Standard.grammar.readSource "\x7ba\x7d").tree = some tree₁ ∧
        (Standard.grammar.readSource "query\x7ba\x7d").tree = some tree₂ ∧
        (Standard.grammar.readSource "\x7ba\x7d").document = .ok d₁ ∧
        (Standard.grammar.readSource "query\x7ba\x7d").document = .ok d₂ ∧
        d₁.isWhole = true ∧ d₂.isWhole = true ∧
        (d₁.unplaced = d₂.unplaced →
          (essentialTokens tree₁ (Scan.ofSource "\x7ba\x7d").tokens).map Token.sign
            = (essentialTokens tree₂ (Scan.ofSource "query\x7ba\x7d").tokens).map Token.sign) := by
  obtain ⟨bare, query⟩ : (Standard.grammar.readSource "\x7ba\x7d").hasErrors = false ∧
      (Standard.grammar.readSource "query\x7ba\x7d").hasErrors = false := by
    decide +kernel
  exact ⟨bare, query, document_faithful Standard.grammar?_eq _ _ none none bare query⟩

end GraphQL
