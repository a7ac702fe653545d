/-
  The names of the grammar's rules.

  The set is closed: a grammar gives each of these names one production, and may give it another
  production than the usual one, but adds no name.  `RuleTable` is a total map from the names; its
  entries stand in the order of `Rule.all`, which is also the order in which everything about a
  grammar is checked and listed.
-/

namespace GraphQL

/-! ## Lists of things that can fail -/

/-- A list is made exactly if each of its elements is. -/
theorem mapM_eq_ok_iff {α ε β : Type} {f : β → Except ε α} {bs : List β} {as : List α} :
    bs.mapM f = .ok as ↔ bs.map f = as.map .ok := by
  induction bs generalizing as with
  | nil => cases as <;> simp [pure, Except.pure]
  | cons b rest ih =>
    rw [List.mapM_cons, List.map_cons]
    -- the first element fails, or one of the others does, or all succeed
    cases hb : f b with
    | error e => cases as <;> simp [bind, Except.bind]
    | ok a =>
      cases hr : rest.mapM f with
      | error e =>
        cases as with
        | nil => simp [bind, Except.bind]
        | cons a' as => simpa [bind, Except.bind, hr] using fun _ => @ih as
      | ok as' =>
        cases as with
        | nil => simp [bind, Except.bind, pure, Except.pure]
        | cons a' as => simpa [bind, Except.bind, pure, Except.pure, hr] using fun _ => @ih as

/-! ## Names -/

/-- The name of a rule. -/
inductive Rule where
  | document | definition | executableDefinition | operationDefinition | operationType
  | selectionSet | selection | field | alias | arguments | argument | fragmentSpread
  | inlineFragment | fragmentDefinition | fragmentName | typeCondition | value | booleanValue
  | nullValue | enumValue | listValue | objectValue | objectField | variableDefinitions
  | variableDefinition | variable | defaultValue | type | namedType | listType | directives
  | directive | typeSystemDefinition | typeSystemExtension | schemaDefinition | schemaExtension
  | operationTypeDefinitionList | operationTypeDefinition | description | typeDefinition
  | typeExtension | scalarTypeDefinition | scalarTypeExtension | objectTypeDefinition
  | objectTypeExtension | implementsInterfaces | fieldsDefinition | fieldDefinition
  | argumentsDefinition | inputValueDefinition | interfaceTypeDefinition
  | interfaceTypeExtension | unionTypeDefinition | unionMemberTypes | unionTypeExtension
  | enumTypeDefinition | enumValuesDefinition | enumValueDefinition | enumTypeExtension
  | inputObjectTypeDefinition | inputFieldsDefinition | inputObjectTypeExtension
  | directiveDefinition | directiveLocations | directiveLocation | executableDirectiveLocation
  | typeSystemDirectiveLocation
deriving DecidableEq, Repr

instance : Inhabited Rule := ⟨.document⟩

namespace Rule

/-- Every rule name, in the order of checks and listings. -/
def all : List Rule :=
  [.document, .definition, .executableDefinition, .operationDefinition, .operationType,
   .selectionSet, .selection, .field, .alias, .arguments, .argument, .fragmentSpread,
   .inlineFragment, .fragmentDefinition, .fragmentName, .typeCondition, .value, .booleanValue,
   .nullValue, .enumValue, .listValue, .objectValue, .objectField, .variableDefinitions,
   .variableDefinition, .variable, .defaultValue, .type, .namedType, .listType, .directives,
   .directive, .typeSystemDefinition, .typeSystemExtension, .schemaDefinition,
   .schemaExtension, .operationTypeDefinitionList, .operationTypeDefinition, .description,
   .typeDefinition, .typeExtension, .scalarTypeDefinition, .scalarTypeExtension,
   .objectTypeDefinition, .objectTypeExtension, .implementsInterfaces, .fieldsDefinition,
   .fieldDefinition, .argumentsDefinition, .inputValueDefinition, .interfaceTypeDefinition,
   .interfaceTypeExtension, .unionTypeDefinition, .unionMemberTypes, .unionTypeExtension,
   .enumTypeDefinition, .enumValuesDefinition, .enumValueDefinition, .enumTypeExtension,
   .inputObjectTypeDefinition, .inputFieldsDefinition, .inputObjectTypeExtension,
   .directiveDefinition, .directiveLocations, .directiveLocation, .executableDirectiveLocation,
   .typeSystemDirectiveLocation]

/-- The written form of a rule name. -/
def name : Rule → String
  | .document => "Document"
  | .definition => "Definition"
  | .executableDefinition => "ExecutableDefinition"
  | .operationDefinition => "OperationDefinition"
  | .operationType => "OperationType"
  | .selectionSet => "SelectionSet"
  | .selection => "Selection"
  | .field => "Field"
  | .alias => "Alias"
  | .arguments => "Arguments"
  | .argument => "Argument"
  | .fragmentSpread => "FragmentSpread"
  | .inlineFragment => "InlineFragment"
  | .fragmentDefinition => "FragmentDefinition"
  | .fragmentName => "FragmentName"
  | .typeCondition => "TypeCondition"
  | .value => "Value"
  | .booleanValue => "BooleanValue"
  | .nullValue => "NullValue"
  | .enumValue => "EnumValue"
  | .listValue => "ListValue"
  | .objectValue => "ObjectValue"
  | .objectField => "ObjectField"
  | .variableDefinitions => "VariableDefinitions"
  | .variableDefinition => "VariableDefinition"
  | .variable => "Variable"
  | .defaultValue => "DefaultValue"
  | .type => "Type"
  | .namedType => "NamedType"
  | .listType => "ListType"
  | .directives => "Directives"
  | .directive => "Directive"
  | .typeSystemDefinition => "TypeSystemDefinition"
  | .typeSystemExtension => "TypeSystemExtension"
  | .schemaDefinition => "SchemaDefinition"
  | .schemaExtension => "SchemaExtension"
  | .operationTypeDefinitionList => "OperationTypeDefinitionList"
  | .operationTypeDefinition => "OperationTypeDefinition"
  | .description => "Description"
  | .typeDefinition => "TypeDefinition"
  | .typeExtension => "TypeExtension"
  | .scalarTypeDefinition => "ScalarTypeDefinition"
  | .scalarTypeExtension => "ScalarTypeExtension"
  | .objectTypeDefinition => "ObjectTypeDefinition"
  | .objectTypeExtension => "ObjectTypeExtension"
  | .implementsInterfaces => "ImplementsInterfaces"
  | .fieldsDefinition => "FieldsDefinition"
  | .fieldDefinition => "FieldDefinition"
  | .argumentsDefinition => "ArgumentsDefinition"
  | .inputValueDefinition => "InputValueDefinition"
  | .interfaceTypeDefinition => "InterfaceTypeDefinition"
  | .interfaceTypeExtension => "InterfaceTypeExtension"
  | .unionTypeDefinition => "UnionTypeDefinition"
  | .unionMemberTypes => "UnionMemberTypes"
  | .unionTypeExtension => "UnionTypeExtension"
  | .enumTypeDefinition => "EnumTypeDefinition"
  | .enumValuesDefinition => "EnumValuesDefinition"
  | .enumValueDefinition => "EnumValueDefinition"
  | .enumTypeExtension => "EnumTypeExtension"
  | .inputObjectTypeDefinition => "InputObjectTypeDefinition"
  | .inputFieldsDefinition => "InputFieldsDefinition"
  | .inputObjectTypeExtension => "InputObjectTypeExtension"
  | .directiveDefinition => "DirectiveDefinition"
  | .directiveLocations => "DirectiveLocations"
  | .directiveLocation => "DirectiveLocation"
  | .executableDirectiveLocation => "ExecutableDirectiveLocation"
  | .typeSystemDirectiveLocation => "TypeSystemDirectiveLocation"

instance : ToString Rule := ⟨name⟩

/-- The rule that a text names. -/
def ofName? (text : String) : Option Rule := all.find? fun r => r.name == text

/-- The place of a rule in `all`. -/
def index (r : Rule) : Nat := r.ctorIdx

/-- How many rules there are. -/
def count : Nat := all.length

theorem getElem?_index (r : Rule) : all[r.index]? = some r := by cases r <;> rfl

theorem mem_all (r : Rule) : r ∈ all := List.mem_of_getElem? (getElem?_index r)

theorem index_lt_count (r : Rule) : r.index < count :=
  (List.getElem?_eq_some_iff.mp (getElem?_index r)).1

end Rule

/-! ## Tables -/

/-- One entry for each rule. -/
structure RuleTable (α : Type) where
  entries : Array α
  size_eq : entries.size = Rule.count

namespace RuleTable

variable {α : Type}

/-- The table of a function. -/
def ofFn (f : Rule → α) : RuleTable α :=
  { entries := (Rule.all.map f).toArray, size_eq := by simp [Rule.count] }

/-- The entry of a rule. -/
def get (t : RuleTable α) (r : Rule) : α :=
  have : r.index < t.entries.size := t.size_eq ▸ r.index_lt_count
  t.entries[r.index]

@[simp] theorem get_ofFn (f : Rule → α) (r : Rule) : (ofFn f).get r = f r := by
  have h : (Rule.all.map f)[r.index]? = some (f r) := by simp [Rule.getElem?_index]
  obtain ⟨_, h⟩ := List.getElem?_eq_some_iff.mp h
  simpa [get, ofFn] using h

/-- The table of a function that can fail; of several failures the first in order counts. -/
def ofFn? {ε : Type} (f : Rule → Except ε α) : Except ε (RuleTable α) :=
  match h : Rule.all.mapM f with
  | .error e => .error e
  | .ok as =>
    .ok ⟨as.toArray, by
      have := congrArg List.length (mapM_eq_ok_iff.mp h)
      simpa [Rule.count] using this.symm⟩

/-- Every entry of a table is what the function made for its rule. -/
theorem get_ofFn? {ε : Type} {f : Rule → Except ε α} {t : RuleTable α} (h : ofFn? f = .ok t)
    (r : Rule) : f r = .ok (t.get r) := by
  unfold ofFn? at h
  split at h
  · cases h
  · rename_i as has
    cases h
    have := congrArg (fun l => l[r.index]?) (mapM_eq_ok_iff.mp has)
    simp only [List.getElem?_map, Rule.getElem?_index, Option.map_some] at this
    obtain ⟨a, ha, hf⟩ := Option.map_eq_some_iff.mp this.symm
    obtain ⟨_, ha⟩ := List.getElem?_eq_some_iff.mp ha
    simp [get, ha, hf]

instance [Inhabited α] : Inhabited (RuleTable α) := ⟨ofFn fun _ => default⟩

end RuleTable

example : Rule.count = 67 := by decide

end GraphQL
