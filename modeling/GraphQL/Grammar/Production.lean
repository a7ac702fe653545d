/-
  The bodies of rules.

  A `Production` says what a rule matches.  Two things go beyond plain extended notation.  Each
  call of a rule passes a flag, "only constants may stand here" (`ConstArg`), and an alternative of
  a choice may be closed by a `Gate` when the flag is set or when it is not.  That is how one rule
  for values serves both the places where a variable may stand and those where none may.
-/
import GraphQL.Grammar.Rule
import GraphQL.Token.Kind

namespace GraphQL

/-! ## Productions -/

/-- What a call passes as the flag "only constants here". -/
inductive ConstArg where
  | fixed (constant : Bool)
  | inherited
deriving DecidableEq, Repr

/-- The flag that the called rule sees, from that of the calling one. -/
def ConstArg.resolve : ConstArg → Bool → Bool
  | .fixed b, _ => b
  | .inherited, b => b

/-- When an alternative is open. -/
inductive Gate where
  | always | whenConst | unlessConst
deriving DecidableEq, Repr

/-- Whether an alternative behind the gate may be taken under a flag. -/
def Gate.allows : Gate → Bool → Bool
  | .always, _ => true
  | .whenConst, b => b
  | .unlessConst, b => !b

/-- What a rule, or a part of one, matches. -/
inductive Production where
  | token (kind : TokenKind)
  | call (rule : Rule) (arg : ConstArg)
  | sequence (items : List Production)
  | optional (body : Production)
  | many (body : Production)
  | atLeastOne (body : Production)
  | choice (alternatives : List (Gate × Production))

instance : Inhabited Production := ⟨.sequence []⟩

/-- The productions of all rules. -/
abbrev Productions := RuleTable Production

namespace Production

/-! ## Calls -/

mutual

/-- The rules that a production calls, in the order of the text and with repeats. -/
def calls : Production → List Rule
  | .token _ => []
  | .call rule _ => [rule]
  | .sequence items => callsOfAll items
  | .optional body => body.calls
  | .many body => body.calls
  | .atLeastOne body => body.calls
  | .choice alternatives => callsOfAlternatives alternatives

/-- The calls of productions in a row. -/
def callsOfAll : List Production → List Rule
  | [] => []
  | p :: rest => p.calls ++ callsOfAll rest

/-- The calls of the alternatives of a choice. -/
def callsOfAlternatives : List (Gate × Production) → List Rule
  | [] => []
  | (_, p) :: rest => p.calls ++ callsOfAlternatives rest

end

/-! ## Nullability -/

mutual

/-- Whether a production can match no token at all, given which rules can. -/
def nullable (known : Rule → Bool) : Production → Bool
  | .token _ => false
  | .call rule _ => known rule
  | .sequence items => allNullable known items
  | .optional _ => true
  | .many _ => true
  | .atLeastOne body => body.nullable known
  | .choice alternatives => someNullable known alternatives

/-- Whether each of some productions can match nothing. -/
def allNullable (known : Rule → Bool) : List Production → Bool
  | [] => true
  | p :: rest => p.nullable known && allNullable known rest

/-- Whether one of some alternatives can match nothing. -/
def someNullable (known : Rule → Bool) : List (Gate × Production) → Bool
  | [] => false
  | (_, p) :: rest => p.nullable known || someNullable known rest

end

/-! ## Calls on the left -/

mutual

/-- The rules that a production may call before it has matched a token. -/
def leftCalls (known : Rule → Bool) : Production → List Rule
  | .token _ => []
  | .call rule _ => [rule]
  | .sequence items => leftCallsOfAll known items
  | .optional body => body.leftCalls known
  | .many body => body.leftCalls known
  | .atLeastOne body => body.leftCalls known
  | .choice alternatives => leftCallsOfAlternatives known alternatives

/-- The left calls of productions in a row: those of the first, and of the rest if the first can
    match nothing. -/
def leftCallsOfAll (known : Rule → Bool) : List Production → List Rule
  | [] => []
  | p :: rest =>
    p.leftCalls known ++ if p.nullable known then leftCallsOfAll known rest else []

/-- The left calls of the alternatives of a choice. -/
def leftCallsOfAlternatives (known : Rule → Bool) : List (Gate × Production) → List Rule
  | [] => []
  | (_, p) :: rest => p.leftCalls known ++ leftCallsOfAlternatives known rest

end

/-! ## Empty repetitions -/

mutual

/-- Whether some repetition repeats what can match nothing. -/
def repeatsNullable (known : Rule → Bool) : Production → Bool
  | .token _ => false
  | .call _ _ => false
  | .sequence items => repeatsNullableInAll known items
  | .optional body => body.repeatsNullable known
  | .many body => body.nullable known || body.repeatsNullable known
  | .atLeastOne body => body.nullable known || body.repeatsNullable known
  | .choice alternatives => repeatsNullableInAlternatives known alternatives

/-- The same, in one of some productions. -/
def repeatsNullableInAll (known : Rule → Bool) : List Production → Bool
  | [] => false
  | p :: rest => p.repeatsNullable known || repeatsNullableInAll known rest

/-- The same, in one of some alternatives. -/
def repeatsNullableInAlternatives (known : Rule → Bool) : List (Gate × Production) → Bool
  | [] => false
  | (_, p) :: rest => p.repeatsNullable known || repeatsNullableInAlternatives known rest

end

end Production

end GraphQL
