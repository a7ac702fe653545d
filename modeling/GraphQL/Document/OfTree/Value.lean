/-
  Names, types and values from trees.

  Each function makes one part of a document from the node of its rule.  A part that a broken
  reading lacks is filled in.  Where a list is made, an item that came to nothing is left out.
-/
import GraphQL.Document.Gap
import GraphQL.Document.Value

namespace GraphQL

/-! ## Names -/

/-- The name that a token shows. -/
def Name.ofToken (t : Token) : Name := ⟨t.text, t.bytes⟩

/-- The name that a node holds under a demand. -/
def Name.ofNode (demand : TokenKind) (n : Node) : Build Name := do
  let token ← n.requireToken demand
  return (token.map Name.ofToken).getD .missing

/-- The variable of a node. -/
def Variable.ofNode (n : Node) : Build Variable := do
  let name ← Name.ofNode Category.name n
  return { name, loc := n.span }

/-! ## Types -/

/-- The named type of a node. -/
def NamedType.ofNode (n : Node) : Build NamedType := do
  let name ← Name.ofNode Category.name n
  return { name, loc := n.span }

/-- The named type that a node holds. -/
def NamedType.within (n : Node) : Build NamedType := do
  let type ← n.withRequired .namedType fun c _ => NamedType.ofNode c
  return type.getD .missing

/-- The named types that a node holds. -/
def NamedType.allWithin (n : Node) : Build (List NamedType) :=
  n.withEach .namedType fun c _ => NamedType.ofNode c

/-- What a type reference chooses from. -/
def TypeReference.alternatives : List Label := [.rule .namedType, .rule .listType]

mutual

/-- The type reference of a node; an exclamation mark covers the whole node. -/
def TypeReference.ofNode (n : Node) : Build TypeReference := do
  let inner ← n.withChosen TypeReference.alternatives fun c _ =>
    match c.rule with
    | .namedType => some ((NamedType.ofNode c).map fun t => some (.named t))
    | .listType => some ((TypeReference.listOfNode c).map some)
    | _ => none
  let inner := inner.getD (.named .missing)
  return if n.has (.token Punctuator.exclamation) then .nonNull inner n.span else inner
termination_by sizeOf n
decreasing_by exact Node.sizeOf_lt_of_mem_children ‹_›

/-- The list type of a node. -/
def TypeReference.listOfNode (n : Node) : Build TypeReference := do
  let element ← n.withRequired .type fun c _ => TypeReference.ofNode c
  return .list (element.getD (.named .missing)) n.span
termination_by sizeOf n
decreasing_by exact Node.sizeOf_lt_of_mem_children ‹_›

end

/-- The type reference that a node holds. -/
def TypeReference.within (n : Node) : Build TypeReference := do
  let type ← n.withRequired .type fun c _ => TypeReference.ofNode c
  return type.getD (.named .missing)

/-! ## Values -/

/-- The string literal that a token shows. -/
def StringValue.ofToken (t : Token) : StringValue :=
  { value := t.text, block := t.kind == .blockString, loc := t.bytes }

namespace Value

/-- What a value chooses from. -/
def alternatives : List Label :=
  [ .rule .variable, .token .int, .token .float, .token Category.string, .rule .booleanValue
  , .rule .nullValue, .rule .enumValue, .rule .listValue, .rule .objectValue ]

/-- The literal that a node holds itself, if it holds one. -/
def literal? (n : Node) : Option Value :=
  match n.token? .int with
  | some t => some (.int t.text t.bytes)
  | none =>
    match n.token? .float with
    | some t => some (.float t.text t.bytes)
    | none => (n.token? Category.string).map fun t => .string (.ofToken t)

/-- The truth value of a node. -/
def booleanOfNode (n : Node) : Build (Option Value) :=
  if n.has (.token Word.trueWord) then .ok (some (.boolean true n.span))
  else if n.has (.token Word.falseWord) then .ok (some (.boolean false n.span))
  else n.lack (.choice [.token Word.trueWord, .token Word.falseWord] none)

/-- The null of a node. -/
def nullOfNode (n : Node) : Build Value := do
  let _ ← n.requireToken Word.nullWord
  return .null n.span

/-- The enumeration value of a node. -/
def enumOfNode (n : Node) : Build (Option Value) := do
  let token ← n.requireToken Category.nameButLiteral
  return token.map fun t => .enum t.text t.bytes

end Value

mutual

/-- The value of a node. -/
def Value.ofNode (n : Node) : Build (Option Value) :=
  match Value.literal? n with
  | some v => .ok (some v)
  | none =>
    n.withChosen Value.alternatives fun c _ =>
      match c.rule with
      | .variable => some ((Variable.ofNode c).map fun v => some (.variable v))
      | .booleanValue => some (Value.booleanOfNode c)
      | .nullValue => some ((Value.nullOfNode c).map some)
      | .enumValue => some (Value.enumOfNode c)
      | .listValue => some ((Value.listOfNode c).map some)
      | .objectValue => some ((Value.objectOfNode c).map some)
      | _ => none
termination_by sizeOf n
decreasing_by all_goals exact Node.sizeOf_lt_of_mem_children ‹_›

/-- The list of a node. -/
def Value.listOfNode (n : Node) : Build Value := do
  let values ← n.withPresent .value fun c _ => Value.ofNode c
  return .list values n.span
termination_by sizeOf n
decreasing_by exact Node.sizeOf_lt_of_mem_children ‹_›

/-- The object of a node. -/
def Value.objectOfNode (n : Node) : Build Value := do
  let fields ← n.withEach .objectField fun c _ => ObjectField.ofNode c
  return .object fields n.span
termination_by sizeOf n
decreasing_by exact Node.sizeOf_lt_of_mem_children ‹_›

/-- The field of a node. -/
def ObjectField.ofNode (n : Node) : Build ObjectField := do
  let name ← Name.ofNode Category.name n
  let value ← n.withRequired .value fun c _ => Value.ofNode c
  return { name, value := value.join.getD .missing, loc := n.span }
termination_by sizeOf n
decreasing_by exact Node.sizeOf_lt_of_mem_children ‹_›

end

/-- The value that a node holds; none if it came to nothing. -/
def Value.within (n : Node) : Build (Option Value) := do
  let value ← n.withRequired .value fun c _ => Value.ofNode c
  return value.join

end GraphQL
