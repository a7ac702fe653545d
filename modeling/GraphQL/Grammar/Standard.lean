/-
  The grammar of documents, in the edition of June 2018.

  The published grammar is recast where it would need unbounded lookahead.  A non-null type is a
  type with an optional mark after it.  An extension is a choice over which of its optional clauses
  comes first, so that it has at least one of them.  A list of values or of fields in braces is told
  from what follows within a rule only, so a brace after a definition that may have a body is always
  taken for its body.
-/
import GraphQL.Grammar.Draft

namespace GraphQL.Standard

open Production

/-! ## Short forms -/

/-- A punctuator. -/
def mark (p : Punctuator) : Production := .token (.punctuator p)

/-- A word of the grammar. -/
def word (w : Word) : Production := .token (.keyword (.word w))

/-- A directive location. -/
def location (l : Location) : Production := .token (.keyword (.location l))

/-- A token of a category. -/
def any (c : Category) : Production := .token (.category c)

/-- A rule in which variables may stand. -/
def rule (r : Rule) : Production := .call r (.fixed false)

/-- A rule in which only constants may stand. -/
def constRule (r : Rule) : Production := .call r (.fixed true)

/-- A rule in which variables may stand if they may here. -/
def sameRule (r : Rule) : Production := .call r .inherited

/-- A choice whose alternatives are always open. -/
def either (alternatives : List Production) : Production :=
  .choice (alternatives.map fun p => (.always, p))

/-! ## The productions -/

/-- The production of each rule. -/
def production : Rule → Production
  -- Executable definitions
  | .document => .many (rule .definition)
  | .definition =>
    either [rule .executableDefinition, rule .typeSystemDefinition, rule .typeSystemExtension]
  | .executableDefinition => either [rule .operationDefinition, rule .fragmentDefinition]
  | .operationDefinition =>
    either
      [rule .selectionSet,
       .sequence
         [rule .operationType, .optional (any .name), .optional (rule .variableDefinitions),
          .optional (rule .directives), rule .selectionSet]]
  | .operationType => either [word .query, word .mutation, word .subscription]
  | .selectionSet => .sequence [mark .leftBrace, .atLeastOne (rule .selection), mark .rightBrace]
  | .selection => either [rule .field, rule .fragmentSpread, rule .inlineFragment]
  | .field =>
    .sequence
      [.optional (rule .alias), any .name, .optional (rule .arguments),
       .optional (rule .directives), .optional (rule .selectionSet)]
  | .alias => .sequence [any .name, mark .colon]
  | .arguments => .sequence [mark .leftParen, .atLeastOne (sameRule .argument), mark .rightParen]
  | .argument => .sequence [any .name, mark .colon, sameRule .value]
  | .fragmentSpread =>
    .sequence [mark .ellipsis, rule .fragmentName, .optional (rule .directives)]
  | .inlineFragment =>
    .sequence
      [mark .ellipsis, .optional (rule .typeCondition), .optional (rule .directives),
       rule .selectionSet]
  | .fragmentDefinition =>
    .sequence
      [word .fragment, rule .fragmentName, rule .typeCondition, .optional (rule .directives),
       rule .selectionSet]
  | .fragmentName => any .nameButOn
  | .typeCondition => .sequence [word .on, rule .namedType]
  -- Values
  | .value =>
    .choice
      [(.unlessConst, rule .variable), (.always, .token .int), (.always, .token .float),
       (.always, any .string), (.always, rule .booleanValue), (.always, rule .nullValue),
       (.always, rule .enumValue), (.always, sameRule .listValue),
       (.always, sameRule .objectValue)]
  | .booleanValue => either [word .trueWord, word .falseWord]
  | .nullValue => word .nullWord
  | .enumValue => any .nameButLiteral
  | .listValue => .sequence [mark .leftBracket, .many (sameRule .value), mark .rightBracket]
  | .objectValue => .sequence [mark .leftBrace, .many (sameRule .objectField), mark .rightBrace]
  | .objectField => .sequence [any .name, mark .colon, sameRule .value]
  -- Variables and types
  | .variableDefinitions =>
    .sequence [mark .leftParen, .atLeastOne (rule .variableDefinition), mark .rightParen]
  | .variableDefinition =>
    .sequence [rule .variable, mark .colon, rule .type, .optional (rule .defaultValue)]
  | .variable => .sequence [mark .dollar, any .name]
  | .defaultValue => .sequence [mark .equals, constRule .value]
  | .type => .sequence [either [rule .namedType, rule .listType], .optional (mark .exclamation)]
  | .namedType => any .name
  | .listType => .sequence [mark .leftBracket, rule .type, mark .rightBracket]
  -- Directives
  | .directives => .atLeastOne (sameRule .directive)
  | .directive => .sequence [mark .at, any .name, .optional (sameRule .arguments)]
  -- Type system
  | .typeSystemDefinition =>
    either [rule .schemaDefinition, rule .typeDefinition, rule .directiveDefinition]
  | .typeSystemExtension => either [rule .schemaExtension, rule .typeExtension]
  | .schemaDefinition =>
    .sequence
      [word .schema, .optional (constRule .directives), mark .leftBrace,
       .atLeastOne (rule .operationTypeDefinition), mark .rightBrace]
  | .schemaExtension =>
    .sequence
      [word .extend, word .schema,
       either
         [.sequence [constRule .directives, .optional (rule .operationTypeDefinitionList)],
          rule .operationTypeDefinitionList]]
  | .operationTypeDefinitionList =>
    .sequence [mark .leftBrace, .atLeastOne (rule .operationTypeDefinition), mark .rightBrace]
  | .operationTypeDefinition => .sequence [rule .operationType, mark .colon, rule .namedType]
  | .description => any .string
  | .typeDefinition =>
    either
      [rule .scalarTypeDefinition, rule .objectTypeDefinition, rule .interfaceTypeDefinition,
       rule .unionTypeDefinition, rule .enumTypeDefinition, rule .inputObjectTypeDefinition]
  | .typeExtension =>
    either
      [rule .scalarTypeExtension, rule .objectTypeExtension, rule .interfaceTypeExtension,
       rule .unionTypeExtension, rule .enumTypeExtension, rule .inputObjectTypeExtension]
  | .scalarTypeDefinition =>
    .sequence
      [.optional (rule .description), word .scalar, any .name,
       .optional (constRule .directives)]
  | .scalarTypeExtension =>
    .sequence [word .extend, word .scalar, any .name, constRule .directives]
  | .objectTypeDefinition =>
    .sequence
      [.optional (rule .description), word .type, any .name,
       .optional (rule .implementsInterfaces), .optional (constRule .directives),
       .optional (rule .fieldsDefinition)]
  | .objectTypeExtension =>
    .sequence
      [word .extend, word .type, any .name,
       either
         [.sequence
            [rule .implementsInterfaces, .optional (constRule .directives),
             .optional (rule .fieldsDefinition)],
          .sequence [constRule .directives, .optional (rule .fieldsDefinition)],
          rule .fieldsDefinition]]
  | .implementsInterfaces =>
    .sequence
      [word .implements, .optional (mark .ampersand), rule .namedType,
       .many (.sequence [mark .ampersand, rule .namedType])]
  | .fieldsDefinition =>
    .sequence [mark .leftBrace, .atLeastOne (rule .fieldDefinition), mark .rightBrace]
  | .fieldDefinition =>
    .sequence
      [.optional (rule .description), any .name, .optional (rule .argumentsDefinition),
       mark .colon, rule .type, .optional (constRule .directives)]
  | .argumentsDefinition =>
    .sequence [mark .leftParen, .atLeastOne (rule .inputValueDefinition), mark .rightParen]
  | .inputValueDefinition =>
    .sequence
      [.optional (rule .description), any .name, mark .colon, rule .type,
       .optional (rule .defaultValue), .optional (constRule .directives)]
  | .interfaceTypeDefinition =>
    .sequence
      [.optional (rule .description), word .interface, any .name,
       .optional (constRule .directives), .optional (rule .fieldsDefinition)]
  | .interfaceTypeExtension =>
    .sequence
      [word .extend, word .interface, any .name,
       either
         [.sequence [constRule .directives, .optional (rule .fieldsDefinition)],
          rule .fieldsDefinition]]
  | .unionTypeDefinition =>
    .sequence
      [.optional (rule .description), word .union, any .name, .optional (constRule .directives),
       .optional (rule .unionMemberTypes)]
  | .unionMemberTypes =>
    .sequence
      [mark .equals, .optional (mark .bar), rule .namedType,
       .many (.sequence [mark .bar, rule .namedType])]
  | .unionTypeExtension =>
    .sequence
      [word .extend, word .union, any .name,
       either
         [.sequence [constRule .directives, .optional (rule .unionMemberTypes)],
          rule .unionMemberTypes]]
  | .enumTypeDefinition =>
    .sequence
      [.optional (rule .description), word .enum, any .name, .optional (constRule .directives),
       .optional (rule .enumValuesDefinition)]
  | .enumValuesDefinition =>
    .sequence [mark .leftBrace, .atLeastOne (rule .enumValueDefinition), mark .rightBrace]
  | .enumValueDefinition =>
    .sequence [.optional (rule .description), rule .enumValue, .optional (constRule .directives)]
  | .enumTypeExtension =>
    .sequence
      [word .extend, word .enum, any .name,
       either
         [.sequence [constRule .directives, .optional (rule .enumValuesDefinition)],
          rule .enumValuesDefinition]]
  | .inputObjectTypeDefinition =>
    .sequence
      [.optional (rule .description), word .input, any .name, .optional (constRule .directives),
       .optional (rule .inputFieldsDefinition)]
  | .inputFieldsDefinition =>
    .sequence [mark .leftBrace, .atLeastOne (rule .inputValueDefinition), mark .rightBrace]
  | .inputObjectTypeExtension =>
    .sequence
      [word .extend, word .input, any .name,
       either
         [.sequence [constRule .directives, .optional (rule .inputFieldsDefinition)],
          rule .inputFieldsDefinition]]
  | .directiveDefinition =>
    .sequence
      [.optional (rule .description), word .directive, mark .at, any .name,
       .optional (rule .argumentsDefinition), word .on, rule .directiveLocations]
  | .directiveLocations =>
    .sequence
      [.optional (mark .bar), rule .directiveLocation,
       .many (.sequence [mark .bar, rule .directiveLocation])]
  | .directiveLocation =>
    either [rule .executableDirectiveLocation, rule .typeSystemDirectiveLocation]
  | .executableDirectiveLocation =>
    either
      [location .query, location .mutation, location .subscription, location .field,
       location .fragmentDefinition, location .fragmentSpread, location .inlineFragment]
  | .typeSystemDirectiveLocation =>
    either
      [location .schema, location .scalar, location .object, location .fieldDefinition,
       location .argumentDefinition, location .interface, location .union, location .enum,
       location .enumValue, location .inputObject, location .inputFieldDefinition]

/-- The productions as a table. -/
def productions : Productions := .ofFn production

/-- The draft with these productions. -/
def draft : Draft := { entries := .ofFn fun r => some (production r) }

/-- The grammar; that its table passes every check is a fact about it, not an assumption. -/
def grammar? : Except GrammarError Grammar := draft.finish

end GraphQL.Standard
