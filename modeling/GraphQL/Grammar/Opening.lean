/-
  With which tokens a production can begin.

  `openings k row` lists the paths of at most `k` demands with which a match of the productions of
  `row`, one after the other, can begin: a path of `k` demands is cut off there, a shorter one is a
  whole match.  Each path is listed once, and the order is that of the text, so the first path of a
  choice comes from its first alternative.

  The list is built one demand at a time.  `starts row` says how a match can begin: with nothing at
  all, or with a demand, and then it says what is left to match.  A call on the left makes nothing
  smaller by itself; `calls` counts how many may still be made before a demand is met.  In a table
  without left recursion no more are ever needed than there are rules.
-/
import GraphQL.Grammar.Check

namespace GraphQL

/-- Demands in a row. -/
abbrev Path := List TokenKind

/-- Every element once, at its first place. -/
def distinct {α : Type} [DecidableEq α] : List α → List α
  | [] => []
  | a :: rest => a :: (distinct rest).filter (· ≠ a)

theorem mem_distinct {α : Type} [DecidableEq α] {a : α} {as : List α} :
    a ∈ distinct as ↔ a ∈ as := by
  induction as with
  | nil => simp [distinct]
  | cons b rest ih => by_cases h : a = b <;> simp [distinct, h, ih]

theorem nodup_distinct {α : Type} [DecidableEq α] (as : List α) : (distinct as).Nodup := by
  induction as with
  | nil => simp [distinct]
  | cons b rest ih =>
    simp only [distinct, List.nodup_cons, List.mem_filter]
    exact ⟨by simp, ih.filter _⟩

/-! ## Starts -/

/-- How a match begins: with a demand, after which a row of productions is left to match; or not at
    all, since nothing is matched. -/
abbrev Start := Option (TokenKind × List Production)

/-- The starts of a match that goes on with a row; what matched nothing begins as the row does. -/
def Start.andThen (row : List Production) (later : Unit → List Start) : Start → List Start
  | none => later ()
  | some (kind, rest) => [some (kind, rest ++ row)]

namespace Production

mutual

/-- How a production can begin; `enter` begins the rules that are called on the left.  A round of a
    repetition that matches nothing begins nothing; a sound table has none. -/
def starts (enter : Rule → List Start) : Production → List Start
  | .token kind => [some (kind, [])]
  | .call rule _ => enter rule
  | .sequence items => startsOfRow enter items
  | .optional body => body.starts enter ++ [none]
  | .many body => (body.starts enter).flatMap (Start.andThen [.many body] fun _ => []) ++ [none]
  | .atLeastOne body => (body.starts enter).flatMap (Start.andThen [.many body] fun _ => [])
  | .choice alternatives => startsOfAlternatives enter alternatives

/-- How productions in a row can begin. -/
def startsOfRow (enter : Rule → List Start) : List Production → List Start
  | [] => [none]
  | p :: rest => (p.starts enter).flatMap (Start.andThen rest fun _ => startsOfRow enter rest)

/-- How the alternatives of a choice can begin, gates left aside. -/
def startsOfAlternatives (enter : Rule → List Start) : List (Gate × Production) → List Start
  | [] => []
  | (_, p) :: rest => p.starts enter ++ startsOfAlternatives enter rest

end

end Production

namespace Productions

/-- How a rule can begin, with `calls` calls left on its left edge. -/
def startsWithin (g : Productions) : (calls : Nat) → Rule → List Start
  | 0, _ => []
  | calls + 1, r => (g.get r).starts (g.startsWithin calls)

/-- How productions in a row can begin. -/
def starts (g : Productions) (row : List Production) : List Start :=
  Production.startsOfRow (g.startsWithin Rule.count) row

/-! ## Openings -/

/-- The openings, to depth `k`, of productions in a row. -/
def openings (g : Productions) : (k : Nat) → List Production → List Path
  | 0, _ => [[]]
  | k + 1, row =>
    distinct <| (g.starts row).flatMap fun
      | none => [[]]
      | some (kind, rest) => (g.openings k rest).map (kind :: ·)

/-- The first demands of productions in a row; a match of nothing has none. -/
def firsts (g : Productions) (row : List Production) : List TokenKind :=
  (g.openings 1 row).filterMap List.head?

end Productions

end GraphQL
