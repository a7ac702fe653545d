/-
  Every document is recognized.

  The grammar of documents is ambiguous at nine rules: a definition or an extension that may have a
  clause in braces, and has none, could be followed by the braces of a query.  There the reading
  takes the brace for the clause.  Elsewhere lookahead decides as the derivation does, since the
  follow table below is settled.

  The table is written down rather than computed.  It need not be the least one, so rules that end
  in much the same places share a list; that it has enough is part of what `settled` checks.
-/
import GraphQL.Proofs.Completeness
import GraphQL.Proofs.StandardGrammar

namespace GraphQL

namespace Standard

/-! ## Clauses in braces -/

/-- The clause in braces that ends a rule and may be left out. -/
def clause? : Rule → Option Rule
  | .objectTypeDefinition | .objectTypeExtension => some .fieldsDefinition
  | .interfaceTypeDefinition | .interfaceTypeExtension => some .fieldsDefinition
  | .enumTypeDefinition | .enumTypeExtension => some .enumValuesDefinition
  | .inputObjectTypeDefinition | .inputObjectTypeExtension => some .inputFieldsDefinition
  | .schemaExtension => some .operationTypeDefinitionList
  | _ => none

/-- No rule that leaves out its clause in braces stands before a brace. -/
def NoDangling (r : Rule) (parts : List Part) (rest : List Token) : Prop :=
  ∀ clause, clause? r = some clause → .rule clause ∉ parts.map (·.1) →
    ∀ t ∈ rest.head?, t.kind ≠ .punctuator .leftBrace

theorem noDangling_of_none {r : Rule} (none : clause? r = none) {parts : List Part}
    {rest : List Token} : NoDangling r parts rest := by
  intro clause h
  rw [none] at h
  cases h

/-! ## What follows the rules -/

/-- Some punctuators as demands. -/
def marks (ps : List Punctuator) : List TokenKind := ps.map .punctuator

/-- Some words as demands. -/
def words (ws : List Word) : List TokenKind := ws.map fun w => .keyword (.word w)

/-- Another definition, or the end. -/
def behindDefinition : List TokenKind :=
  .punctuator .leftBrace :: .category .string :: .endOfInput ::
    words [.query, .mutation, .subscription, .fragment, .schema, .extend, .scalar, .type,
      .interface, .union, .enum, .input, .directive]

/-- Another selection, or the end of a selection set. -/
def behindSelection : List TokenKind := .category .name :: marks [.ellipsis, .rightBrace]

/-- Another value or field, what goes on after a default value, or directives. -/
def behindValue : List TokenKind :=
  [.int, .float, .category .string, .category .name, .category .nameButLiteral]
    ++ words [.trueWord, .falseWord, .nullWord]
    ++ marks [.dollar, .leftBracket, .leftBrace, .rightBracket, .rightBrace, .rightParen, .at]

/-- What goes on after a variable or an input value, a field or the end of a list of either. -/
def behindDefault : List TokenKind :=
  .category .string :: .category .name :: marks [.at, .dollar, .rightParen, .rightBrace]

def behindType : List TokenKind := behindDefault ++ marks [.equals, .rightBracket]

/-- Directives stand last in whatever has some, or before its clause in braces. -/
def behindDirectives : List TokenKind :=
  behindDefinition ++ [.category .name, .category .nameButLiteral]
    ++ marks [.equals, .rightBrace, .rightParen, .ellipsis]

/-- The demands that may follow a rule. -/
def behind : Rule → List TokenKind
  | .document => [.endOfInput]
  | .operationType => .category .name :: marks [.leftParen, .at, .leftBrace, .colon]
  | .selectionSet => behindSelection ++ behindDefinition
  | .selection | .field | .fragmentSpread | .inlineFragment => behindSelection
  | .alias => [.category .name]
  | .arguments | .directive => .punctuator .at :: behindDirectives
  | .argument => .category .name :: marks [.rightParen]
  | .fragmentName => .keyword (.word .on) :: .punctuator .at :: behindSelection
  | .typeCondition | .variableDefinitions => marks [.at, .leftBrace]
  | .value | .booleanValue | .nullValue | .enumValue | .listValue | .objectValue => behindValue
  | .objectField => .category .name :: marks [.rightBrace]
  | .variableDefinition => marks [.dollar, .rightParen]
  | .variable => .punctuator .colon :: behindValue
  | .defaultValue => behindDefault
  | .type => behindType
  | .namedType => marks [.exclamation, .ampersand, .bar] ++ behindType ++ behindDefinition
  | .listType => .punctuator .exclamation :: behindType
  | .directives => behindDirectives
  | .operationTypeDefinition =>
    .punctuator .rightBrace :: words [.query, .mutation, .subscription]
  | .description =>
    .category .name :: .category .nameButLiteral ::
      words [.scalar, .type, .interface, .union, .enum, .input, .directive]
  | .implementsInterfaces => .punctuator .at :: behindDefinition
  | .fieldDefinition => .category .string :: .category .name :: marks [.rightBrace]
  | .argumentsDefinition => [.punctuator .colon, .keyword (.word .on)]
  | .inputValueDefinition =>
    .category .string :: .category .name :: marks [.rightParen, .rightBrace]
  | .enumValueDefinition =>
    .category .string :: .category .nameButLiteral :: marks [.rightBrace]
  | .directiveLocation | .executableDirectiveLocation | .typeSystemDirectiveLocation =>
    .punctuator .bar :: behindDefinition
  | _ => behindDefinition

/-- Whether a rule has left out its clause in braces, if it uses some labels at most. -/
def leavesClause (r : Rule) (used : List Label) : Bool :=
  (clause? r).any fun clause => !used.contains (.rule clause)

/-- The demands that may follow a rule that uses some labels at most. -/
def behindGiven (r : Rule) (used : List Label) : List TokenKind :=
  if leavesClause r used then (behind r).filter (· ≠ .punctuator .leftBrace) else behind r

/-- The follow table of documents in which no clause is left out before a brace. -/
def followTable : FollowTable := { all := behind, given := behindGiven }

/-- A rule that uses some labels at most is followed by what may follow the rule at all, but by no
    left brace if it has left out its clause. -/
theorem mem_behindGiven {r : Rule} {used : List Label} {kind : TokenKind} :
    kind ∈ behindGiven r used ↔
      kind ∈ behind r ∧ (leavesClause r used = true → kind ≠ .punctuator .leftBrace) := by
  unfold behindGiven
  split
  · rename_i leaves
    simp [List.mem_filter, leaves]
  · rename_i has
    simp [has]

theorem leavesClause_mono {r : Rule} {used more : List Label} (grow : used ⊆ more)
    (h : leavesClause r more = true) : leavesClause r used = true := by
  obtain ⟨clause, hclause, unused⟩ := (Option.any_eq_true _ _).mp h
  refine (Option.any_eq_true _ _).mpr ⟨clause, hclause, ?_⟩
  simp only [Bool.not_eq_true', List.contains_eq_mem, decide_eq_false_iff_not] at unused ⊢
  exact fun used => unused (grow used)

/-- A rule that leaves out its clause and may stand where it does is not before a brace. -/
theorem kind_ne_leftBrace {r : Rule} {parts : List Part} {t : Token} {rest : List Token}
    (fits : NoDangling r parts (t :: rest)) (leaves : leavesClause r (parts.map (·.1)) = true) :
    t.kind ≠ .punctuator .leftBrace := by
  obtain ⟨clause, hclause, unused⟩ := (Option.any_eq_true _ _).mp leaves
  have unused : .rule clause ∉ parts.map (·.1) := by simpa using unused
  exact fits clause hclause unused t rfl

/-- The table is sound: with more labels used more may follow, and a brace is left out only where no
    document has one. -/
theorem followTable_sound : followTable.Sound NoDangling where
  given_subset r used kind h := (mem_behindGiven.mp h).1
  mono r used more grow kind h := by
    obtain ⟨hkind, other⟩ := mem_behindGiven.mp h
    exact mem_behindGiven.mpr ⟨hkind, fun leaves => other (leavesClause_mono grow leaves)⟩
  atEnd r used h := mem_behindGiven.mpr ⟨h, fun _ => nofun⟩
  narrow r parts t rest fits := by
    rintro ⟨kind, hkind, met⟩
    refine ⟨kind, mem_behindGiven.mpr ⟨hkind, fun leaves => ?_⟩, met⟩
    rintro rfl
    have brace : t.kind = .punctuator .leftBrace := by
      simpa [Token.meets, TokenKind.satisfies] using met
    exact kind_ne_leftBrace fits leaves brace

/-! ## Documents -/

set_option maxRecDepth 100000 in
/-- With this table every choice of the standard productions is the right one. -/
theorem settled (r : Rule) :
    productions.settled followTable r [] [] (productions.get r) = true := by
  have all : ∀ r ∈ Rule.all,
      productions.settled followTable r [] [] (productions.get r) = true := by
    decide +kernel
  exact all r (Rule.mem_all r)

/-- The standard grammar predicts: all that its decisions rest on has been checked. -/
theorem predictive :
    Predictive grammar followTable NoDangling productions.nullableRules.get rank where
  made := (plan_of_finish finish_eq).2
  ranked := ranked
  settled := settled
  sound := followTable_sound

/-- A called rule derives what its production does. -/
theorem derives_call {n : Nat} {constant : Bool} {r : Rule} {arg : ConstArg}
    {tokens rest : List Token} {parts : List Part}
    (body : Derives productions NoDangling n (arg.resolve constant) (production r) tokens parts rest)
    (fits : NoDangling r parts rest) :
    Derives productions NoDangling (n + 1) constant (.call r arg) tokens
      [(.rule r, .node (.ofParts r parts false))] rest := by
  refine .call ?_ fits
  rwa [productions, RuleTable.get_ofFn]

end Standard

/-- Every derivation of a document is found, if no definition leaves out its clause in braces where
    a brace comes next: the parse records nothing, and its tree is the node of the derivation. -/
theorem document_complete {tokens : List Token} {tree : Node}
    (derives : Derives Standard.productions Standard.NoDangling maxDepth false
      (.call .document (.fixed false)) tokens [(.rule .document, .node tree)] []) :
    ∃ g, Standard.grammar? = .ok g ∧ g.parse .document tokens = ⟨some tree, []⟩ := by
  have last : TokenKind.endOfInput ∈ Standard.followTable.all .document := List.mem_singleton_self _
  exact ⟨Standard.grammar, Standard.grammar?_eq,
    parse_of_derives Standard.predictive last derives⟩

/-- A type without fields and a query. -/
def bareTypeTokens : List Token :=
  [{ kind := .keyword (.word .type), text := "type" }, { kind := .identifier, text := "A" },
   { kind := .keyword (.word .query), text := "query" },
   { kind := .punctuator .leftBrace, text := "\x7b" }, { kind := .identifier, text := "b" },
   { kind := .punctuator .rightBrace, text := "\x7d" }]

open Standard in
/-- A type may leave out its fields before a query that begins with its keyword. -/
theorem document_complete_bareType :
    ∃ tree,
      Derives productions NoDangling maxDepth false (.call .document (.fixed false))
        bareTypeTokens [(.rule .document, .node tree)] [] ∧
      ∃ g, grammar? = .ok g ∧ g.parse .document bareTypeTokens = ⟨some tree, []⟩ := by
  -- the next token after the bare type is `query`, not a brace
  have noBrace : ∀ {parts}, NoDangling .objectTypeDefinition parts (bareTypeTokens.drop 2) := by
    intro _ _ _ _ t next
    cases next
    exact nofun
  have type : Derives productions NoDangling 252 false (rule .objectTypeDefinition) bareTypeTokens _
      (bareTypeTokens.drop 2) :=
    derives_call (.cons .skip <| .cons (.token rfl) <| .cons (.token rfl) <| .cons .skip <|
      .cons .skip <| .cons .skip .nil) noBrace
  have first : Derives productions NoDangling 255 false (rule .definition) bareTypeTokens _
      (bareTypeTokens.drop 2) :=
    derives_call (.branch (.tail _ (.head _)) rfl <|
      derives_call (.branch (.tail _ (.head _)) rfl <|
        derives_call (.branch (.tail _ (.head _)) rfl type) (noDangling_of_none rfl))
      (noDangling_of_none rfl)) (noDangling_of_none rfl)
  have selection : Derives productions NoDangling 251 false (rule .selection)
      (bareTypeTokens.drop 4) _ (bareTypeTokens.drop 5) :=
    derives_call (.branch (.head _) rfl <|
      derives_call (.cons .skip <| .cons (.token rfl) <| .cons .skip <| .cons .skip <|
        .cons .skip .nil) (noDangling_of_none rfl)) (noDangling_of_none rfl)
  have selections : Derives productions NoDangling 252 false (rule .selectionSet)
      (bareTypeTokens.drop 3) _ [] :=
    derives_call (.cons (.token rfl) <| .cons (.once selection .done) <|
      .cons (.token rfl) .nil) (noDangling_of_none rfl)
  have operation : Derives productions NoDangling 252 false (rule .operationType)
      (bareTypeTokens.drop 2) _ (bareTypeTokens.drop 3) :=
    derives_call (.branch (.head _) rfl (.token rfl)) (noDangling_of_none rfl)
  have second : Derives productions NoDangling 255 false (rule .definition)
      (bareTypeTokens.drop 2) _ [] :=
    derives_call (.branch (.head _) rfl <|
      derives_call (.branch (.head _) rfl <|
        derives_call (.branch (.tail _ (.head _)) rfl <|
          .cons operation <| .cons .skip <| .cons .skip <| .cons .skip <| .cons selections .nil)
        (noDangling_of_none rfl)) (noDangling_of_none rfl)) (noDangling_of_none rfl)
  -- the two definitions, one after the other, are the document
  have document : Derives productions NoDangling maxDepth false (.call .document (.fixed false))
      bareTypeTokens [(.rule .document, .node _)] [] :=
    derives_call (.again first (.again second .done)) (noDangling_of_none rfl)
  exact ⟨_, document, document_complete document⟩

end GraphQL
