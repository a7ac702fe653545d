/-
  What a token can be, and what the grammar may ask for.

  A `TokenKind` is either a kind that the text can show (a punctuator, a keyword, an identifier, a
  literal, the end of the input) or a `Category`, which stands only on the asking side: "any name",
  "any name but `on`", "either form of string".  One relation ties the two sides together:
  `TokenKind.satisfies`, "a token of this kind is what was asked for".  Everything else about
  categories is derived from it: the kinds that satisfy a demand (`members`), the demands that a
  kind meets (`categories`), and whether one token could meet two demands (`overlaps`), which is
  what decides whether a grammar's alternatives can be told apart.
-/

namespace GraphQL

/-- A mark that is a token by itself. -/
inductive Punctuator where
  | exclamation | dollar | leftParen | rightParen | ellipsis | colon | equals | at | ampersand
  | leftBracket | rightBracket | leftBrace | bar | rightBrace
deriving DecidableEq, Repr

/-- A lower-case word that the grammar gives a meaning. -/
inductive Word where
  | query | mutation | subscription | fragment | on | trueWord | falseWord | nullWord | schema
  | extend | scalar | implements | interface | union | enum | input | directive | type
deriving DecidableEq, Repr

/-- An upper-case word that names a place where a directive may stand. -/
inductive Location where
  | query | mutation | subscription | field | fragmentDefinition | fragmentSpread
  | inlineFragment | schema | scalar | object | fieldDefinition | argumentDefinition
  | interface | union | enum | enumValue | inputObject | inputFieldDefinition
deriving DecidableEq, Repr

/-- A keyword: a word of the grammar or a directive location. -/
inductive Keyword where
  | word (w : Word)
  | location (l : Location)
deriving DecidableEq, Repr

/-- A demand that several kinds of token meet. -/
inductive Category where
  | name | keyword | string | nameButOn | nameButLiteral
deriving DecidableEq, Repr

/-- The kind of a token, or a category of kinds. -/
inductive TokenKind where
  | punctuator (p : Punctuator)
  | keyword (k : Keyword)
  | identifier | int | float | inlineString | blockString
  | category (c : Category)
  | endOfInput
deriving DecidableEq, Repr

instance : Inhabited TokenKind := ⟨.endOfInput⟩

instance : Coe Punctuator TokenKind := ⟨.punctuator⟩
instance : Coe Word TokenKind := ⟨fun w => .keyword (.word w)⟩
instance : Coe Location TokenKind := ⟨fun l => .keyword (.location l)⟩
instance : Coe Category TokenKind := ⟨.category⟩

/-! ## The kinds in order -/

/-- Every punctuator, in the order in which they are looked for. -/
def Punctuator.all : List Punctuator :=
  [.exclamation, .dollar, .leftParen, .rightParen, .ellipsis, .colon, .equals, .at,
   .ampersand, .leftBracket, .rightBracket, .leftBrace, .bar, .rightBrace]

/-- Every word. -/
def Word.all : List Word :=
  [.query, .mutation, .subscription, .fragment, .on, .trueWord, .falseWord, .nullWord,
   .schema, .extend, .scalar, .implements, .interface, .union, .enum, .input, .directive,
   .type]

/-- Every directive location. -/
def Location.all : List Location :=
  [.query, .mutation, .subscription, .field, .fragmentDefinition, .fragmentSpread,
   .inlineFragment, .schema, .scalar, .object, .fieldDefinition, .argumentDefinition,
   .interface, .union, .enum, .enumValue, .inputObject, .inputFieldDefinition]

/-- Every category. -/
def Category.all : List Category := [.name, .keyword, .string, .nameButOn, .nameButLiteral]

/-- Every keyword: the words first, then the directive locations. -/
def Keyword.all : List Keyword := Word.all.map .word ++ Location.all.map .location

/-- Every kind, in the order in which listings show them. -/
def TokenKind.all : List TokenKind :=
  Punctuator.all.map .punctuator ++ Keyword.all.map .keyword
    ++ [.identifier, .int, .float, .inlineString, .blockString]
    ++ Category.all.map .category ++ [.endOfInput]

/-! ## Spelling -/

/-- The characters of a punctuator. -/
def Punctuator.text : Punctuator → String
  | .exclamation => "!"
  | .dollar => "$"
  | .leftParen => "("
  | .rightParen => ")"
  | .ellipsis => "..."
  | .colon => ":"
  | .equals => "="
  | .at => "@"
  | .ampersand => "&"
  | .leftBracket => "["
  | .rightBracket => "]"
  | .leftBrace => "\x7b"
  | .bar => "|"
  | .rightBrace => "\x7d"

/-- The name that diagnostics give a punctuator. -/
def Punctuator.label : Punctuator → String
  | .exclamation => "Exclamation"
  | .dollar => "Dollar"
  | .leftParen => "LParen"
  | .rightParen => "RParen"
  | .ellipsis => "DotDotDot"
  | .colon => "Colon"
  | .equals => "Equals"
  | .at => "At"
  | .ampersand => "Ampersand"
  | .leftBracket => "LSquare"
  | .rightBracket => "RSquare"
  | .leftBrace => "LCurly"
  | .bar => "VerticalLine"
  | .rightBrace => "RCurly"

/-- The spelling of a word. -/
def Word.text : Word → String
  | .query => "query"
  | .mutation => "mutation"
  | .subscription => "subscription"
  | .fragment => "fragment"
  | .on => "on"
  | .trueWord => "true"
  | .falseWord => "false"
  | .nullWord => "null"
  | .schema => "schema"
  | .extend => "extend"
  | .scalar => "scalar"
  | .implements => "implements"
  | .interface => "interface"
  | .union => "union"
  | .enum => "enum"
  | .input => "input"
  | .directive => "directive"
  | .type => "type"

/-- The name that diagnostics give a word. -/
def Word.label : Word → String
  | .query => "Query"
  | .mutation => "Mutation"
  | .subscription => "Subscription"
  | .fragment => "Fragment"
  | .on => "On"
  | .trueWord => "True"
  | .falseWord => "False"
  | .nullWord => "Null"
  | .schema => "Schema"
  | .extend => "Extend"
  | .scalar => "Scalar"
  | .implements => "Implements"
  | .interface => "Interface"
  | .union => "Union"
  | .enum => "Enum"
  | .input => "Input"
  | .directive => "DirectiveTok"
  | .type => "TypeTok"

/-- The spelling of a directive location, which is also its name in diagnostics. -/
def Location.text : Location → String
  | .query => "QUERY"
  | .mutation => "MUTATION"
  | .subscription => "SUBSCRIPTION"
  | .field => "FIELD"
  | .fragmentDefinition => "FRAGMENT_DEFINITION"
  | .fragmentSpread => "FRAGMENT_SPREAD"
  | .inlineFragment => "INLINE_FRAGMENT"
  | .schema => "SCHEMA"
  | .scalar => "SCALAR"
  | .object => "OBJECT"
  | .fieldDefinition => "FIELD_DEFINITION"
  | .argumentDefinition => "ARGUMENT_DEFINITION"
  | .interface => "INTERFACE"
  | .union => "UNION"
  | .enum => "ENUM"
  | .enumValue => "ENUM_VALUE"
  | .inputObject => "INPUT_OBJECT"
  | .inputFieldDefinition => "INPUT_FIELD_DEFINITION"

/-- The spelling of a keyword. -/
def Keyword.text : Keyword → String
  | .word w => w.text
  | .location l => l.text

/-- The name that diagnostics give a keyword. -/
def Keyword.label : Keyword → String
  | .word w => w.label
  | .location l => l.text

/-- The name that diagnostics give a category. -/
def Category.label : Category → String
  | .name => "Name"
  | .keyword => "Keyword"
  | .string => "StringValue"
  | .nameButOn => "NameButNotOn"
  | .nameButLiteral => "NameButNotTrueOrFalseOrNull"

namespace TokenKind

/-- The name of a kind in diagnostics and in printed trees. -/
def label : TokenKind → String
  | .punctuator p => p.label
  | .keyword k => k.label
  | .identifier => "Identifier"
  | .int => "IntValue"
  | .float => "FloatValue"
  | .inlineString => "InlineStringValue"
  | .blockString => "BlockStringValue"
  | .category c => c.label
  | .endOfInput => "EOF"

instance : ToString TokenKind := ⟨label⟩

/-- The one spelling of a keyword kind. -/
def keywordText? : TokenKind → Option String
  | .keyword k => some k.text
  | _ => none

/-- The one spelling of a punctuator kind. -/
def punctuatorText? : TokenKind → Option String
  | .punctuator p => some p.text
  | _ => none

/-- Whether the kind is a keyword. -/
def isKeyword : TokenKind → Bool
  | .keyword _ => true
  | _ => false

/-- Whether the kind is a punctuator. -/
def isPunctuator : TokenKind → Bool
  | .punctuator _ => true
  | _ => false

/-- Whether the kind is a demand only, which no text shows. -/
def isCategory : TokenKind → Bool
  | .category _ => true
  | _ => false

/-- The kind of a whole word: a keyword if it is spelled exactly so, else an identifier. -/
def ofWord (word : String) : TokenKind :=
  match Keyword.all.find? (fun k => k.text == word) with
  | some k => .keyword k
  | none => .identifier

/-! ## Demands -/

/-- Whether the kind is a name that stands in the category of names. -/
def isIn : TokenKind → Category → Bool
  | .identifier, c => c == .name || c == .nameButOn || c == .nameButLiteral
  | .keyword _, .name => true
  | .keyword _, .keyword => true
  | .keyword k, .nameButOn => k != .word .on
  | .keyword k, .nameButLiteral =>
    k != .word .trueWord && k != .word .falseWord && k != .word .nullWord
  | .inlineString, .string => true
  | .blockString, .string => true
  | _, _ => false

/-- Whether a token of kind `k` is what `demand` asks for: the kind itself, or a member of the
    category.  A category as a kind is met by itself alone. -/
def satisfies (k demand : TokenKind) : Bool :=
  k == demand ||
    match demand with
    | .category c => k.isIn c
    | _ => false

/-- The demands that a token of this kind meets, itself among them. -/
def categories (k : TokenKind) : List TokenKind := all.filter fun demand => k.satisfies demand

/-- The kinds whose tokens meet a demand. -/
def members (demand : TokenKind) : List TokenKind := all.filter fun k => k.satisfies demand

/-- Whether one token that a text can show could meet both demands. -/
def overlaps (a b : TokenKind) : Bool :=
  all.any fun k => !k.isCategory && k.satisfies a && k.satisfies b

theorem satisfies_refl (k : TokenKind) : k.satisfies k = true := by simp [satisfies]

/-- Each kind is listed. -/
theorem mem_all (k : TokenKind) : k ∈ all := by
  cases k with
  | punctuator p => cases p <;> decide
  | keyword k => cases k with
    | word w => cases w <;> decide
    | location l => cases l <;> decide
  | category c => cases c <;> decide
  | _ => decide

end TokenKind

/-! ## Examples -/

example : TokenKind.all.length = 61 := by decide
example : (TokenKind.keyword (.word .on)).satisfies (.category .nameButOn) = false := by decide
example : TokenKind.overlaps (.category .name) (.category .keyword) = true := by decide

end GraphQL
