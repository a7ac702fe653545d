/-
  JSON texts.

  A `Json` is what a text says, with the members of an object in the order in which they are
  written; that order is part of the value.  `Json.compact` writes a value without any blanks,
  `Json.indented` with one item to a line and two blanks for each level.  The two differ in their
  `Layout` alone.

  In a string only the quote, the backslash and the control characters below the blank are escaped;
  all else stands as it is.
-/
import GraphQL.Source

namespace GraphQL

/-- What a JSON text says.  The numbers are natural numbers, which is all that is written here. -/
inductive Json where
  | null
  | bool (b : Bool)
  | number (n : Nat)
  | string (text : String)
  | array (items : List Json)
  | object (members : List (String × Json))
deriving Inhabited, Repr

namespace Json

/-! ## Strings -/

/-- The lower-case hexadecimal digit of a value below sixteen. -/
def hexDigit (n : Nat) : Char := if n < 10 then Char.ofNat (48 + n) else Char.ofNat (87 + n)

/-- How a character stands in a string. -/
def escape (c : Char) : List Char :=
  match c with
  | '"' => ['\\', '"']
  | '\\' => ['\\', '\\']
  | '\n' => ['\\', 'n']
  | '\r' => ['\\', 'r']
  | '\t' => ['\\', 't']
  | '\x08' => ['\\', 'b']
  | '\x0c' => ['\\', 'f']
  | c =>
    if c.toNat < 32 then ['\\', 'u', '0', '0', hexDigit (c.toNat / 16), hexDigit (c.toNat % 16)]
    else [c]

/-- A string between its quotes. -/
def quote (text : String) : String := "\"" ++ String.ofList (text.toList.flatMap escape) ++ "\""

/-! ## Layouts -/

/-- Where a text is broken into lines, and how a member's name is set off from its value. -/
structure Layout where
  /-- What stands before an item, or a closing bracket, of a level. -/
  newLine : Nat → String
  /-- What stands between a name and its value. -/
  colon : String

/-- All on one line, without blanks. -/
def Layout.compact : Layout := ⟨fun _ => "", ":"⟩

/-- One item to a line. -/
def Layout.indented : Layout :=
  ⟨fun level => "\n" ++ String.ofList (List.replicate (2 * level) ' '), ": "⟩

/-- Items between brackets; nothing stands between the brackets of no items. -/
def bracket (layout : Layout) (level : Nat) (opening closing : String) (items : List String) :
    String :=
  if items.isEmpty then opening ++ closing
  else
    opening ++ ",".intercalate (items.map (layout.newLine (level + 1) ++ ·))
      ++ layout.newLine level ++ closing

/-! ## Texts -/

mutual

/-- The text of a value that stands at a level. -/
def write (layout : Layout) (level : Nat) : Json → String
  | .null => "null"
  | .bool b => if b then "true" else "false"
  | .number n => toString n
  | .string text => quote text
  | .array items => bracket layout level "[" "]" (writeItems layout (level + 1) items)
  | .object members =>
    bracket layout level "\x7b" "\x7d" (writeMembers layout (level + 1) members)

/-- The texts of the items of an array. -/
def writeItems (layout : Layout) (level : Nat) : List Json → List String
  | [] => []
  | item :: rest => item.write layout level :: writeItems layout level rest

/-- The texts of the members of an object. -/
def writeMembers (layout : Layout) (level : Nat) : List (String × Json) → List String
  | [] => []
  | (name, value) :: rest =>
    (quote name ++ layout.colon ++ value.write layout level) :: writeMembers layout level rest

end

/-- The text on one line. -/
def compact (j : Json) : String := j.write .compact 0

/-- The text over several lines. -/
def indented (j : Json) : String := j.write .indented 0

/-! ## Values of other types -/

/-- The value of something that may be absent. -/
def ofOption {α : Type} (f : α → Json) : Option α → Json
  | some a => f a
  | none => .null

/-- The array of the values of a list. -/
def ofList {α : Type} (f : α → Json) (as : List α) : Json := .array (as.map f)

end Json

/-! ## Examples -/

example : (Json.object [("a", .array []), ("b", .array [.number 1, .null])]).compact =
    "\x7b\"a\":[],\"b\":[1,null]\x7d" := by cbv
example : (Json.array [.string "\t"]).indented = "[\n  \"\\t\"\n]" := by cbv

end GraphQL
