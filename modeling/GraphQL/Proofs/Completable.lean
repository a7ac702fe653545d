/-
  What can be completed.

  A production derives lists of tokens (`Derivable`); how deep rules are nested does not matter here.
  Some tokens are viable for it (`Viable`) if they can be completed to such a list.  Viable lists are
  put together along rows: what is viable for the first part of a row is viable for the row if the
  others can be completed from nothing, and what is viable for the others is so behind a list that
  the first part derives.

  The crux is that nothing has to be given up once it is begun.  Every call can be completed from
  nothing (`Production.ends`, a least fixed point), and so can each part of a production
  (`Production.passable`), since in each of its choices an alternative is open.
-/
import GraphQL.Proofs.Prediction
import GraphQL.Proofs.Relocation

namespace GraphQL

/-! ## Derivable lists -/

/-- Whether a production derives some tokens and nothing else. -/
def Derivable (g : Productions) (constant : Bool) (p : Production) (tokens : List Token) : Prop :=
  ∃ n parts, Derives g anywhere n constant p tokens parts []

/-- Whether some tokens can be completed, by tokens that a text can show, to a list that a
    production derives. -/
def Viable (g : Productions) (constant : Bool) (p : Production) (before : List Token) : Prop :=
  ∃ completion, Concrete completion ∧ Derivable g constant p (before ++ completion)

theorem allowedAlike_anywhere (rest rest' : List Token) : AllowedAlike anywhere rest rest' :=
  fun _ _ _ _ => trivial

/-- Tokens in a row are concrete if both halves are. -/
theorem Concrete.append {front back : List Token} (h₁ : Concrete front) (h₂ : Concrete back) :
    Concrete (front ++ back) := by
  intro t ht
  rcases List.mem_append.mp ht with ht | ht
  · exact h₁ t ht
  · exact h₂ t ht

/-- Each demand is met by a token that a text can show. -/
theorem TokenKind.exists_concrete (kind : TokenKind) :
    ∃ t : Token, t.kind.isCategory = false ∧ t.meets kind = true := by
  cases kind with
  | category c =>
    cases c with
    | keyword => exact ⟨{ kind := .keyword (.word .on), text := "on" }, rfl, rfl⟩
    | string => exact ⟨{ kind := .inlineString, text := "\"\"" }, rfl, rfl⟩
    | name | nameButOn | nameButLiteral =>
      exact ⟨{ kind := .identifier, text := "a" }, rfl, rfl⟩
  | punctuator p => exact ⟨{ kind := .punctuator p, text := p.text }, rfl, TokenKind.satisfies_refl _⟩
  | keyword k => exact ⟨{ kind := .keyword k, text := "" }, rfl, TokenKind.satisfies_refl _⟩
  | identifier | int | float | inlineString | blockString | endOfInput =>
    exact ⟨{ kind := _, text := "" }, rfl, TokenKind.satisfies_refl _⟩

section Lists

variable {g : Productions} {n : Nat} {constant flag : Bool} {p q r : Production}
  {before taken tokens rest : List Token} {parts : List Part}

/-- What a derivation takes is derivable by itself. -/
theorem Derives.exists_derivable (h : Derives g anywhere n constant p tokens parts rest) :
    ∃ taken, tokens = taken ++ rest ∧ Derivable g constant p taken := by
  obtain ⟨taken, htokens, move⟩ := h.movable
  have alone := move [] (allowedAlike_anywhere rest [])
  rw [List.append_nil] at alone
  exact ⟨taken, htokens, n, parts, alone⟩

/-- Derivable lists are put together if derivations are. -/
theorem Derivable.append
    (join : ∀ {n tokens mid rest parts more}, Derives g anywhere n constant p tokens parts mid →
      Derives g anywhere n constant q mid more rest →
      Derives g anywhere n constant r tokens (parts ++ more) rest)
    (h₁ : Derivable g constant p before) (h₂ : Derivable g constant q taken) :
    Derivable g constant r (before ++ taken) := by
  obtain ⟨n, parts, first⟩ := h₁
  obtain ⟨m, more, second⟩ := h₂
  obtain ⟨alone, hbefore, move⟩ := first.movable
  obtain rfl : before = alone := by simpa using hbefore
  have first := (move taken (allowedAlike_anywhere [] taken)).deeper (Nat.le_max_left n m)
  have second := second.deeper (Nat.le_max_right n m)
  exact ⟨max n m, parts ++ more, join first second⟩

namespace Viable

/-- What is derivable is viable. -/
theorem of_derivable (h : Derivable g constant p before) : Viable g constant p before :=
  ⟨[], fun _ => nofun, by rwa [List.append_nil]⟩

/-- What completes a production completes any other that wraps it. -/
theorem map (h : Viable g constant p before)
    (wrap : ∀ {tokens}, Derivable g constant p tokens → Derivable g flag q tokens) :
    Viable g flag q before := by
  obtain ⟨completion, concrete, derivable⟩ := h
  exact ⟨completion, concrete, wrap derivable⟩

/-- The first of two parts is completed, and then the second. -/
theorem first
    (join : ∀ {n tokens mid rest parts more}, Derives g anywhere n constant p tokens parts mid →
      Derives g anywhere n constant q mid more rest →
      Derives g anywhere n constant r tokens (parts ++ more) rest)
    (h₁ : Viable g constant p before) (h₂ : Viable g constant q []) :
    Viable g constant r before := by
  obtain ⟨completion, concrete, derivable⟩ := h₁
  obtain ⟨more, concreteMore, derivableMore⟩ := h₂
  refine ⟨completion ++ more, concrete.append concreteMore, ?_⟩
  rw [← List.append_assoc]
  exact derivable.append join derivableMore

/-- Behind a list that the first of two parts derives, the second is completed. -/
theorem second
    (join : ∀ {n tokens mid rest parts more}, Derives g anywhere n constant p tokens parts mid →
      Derives g anywhere n constant q mid more rest →
      Derives g anywhere n constant r tokens (parts ++ more) rest)
    (h₁ : Derivable g constant p taken) (h₂ : Viable g constant q before) :
    Viable g constant r (taken ++ before) := by
  obtain ⟨completion, concrete, derivable⟩ := h₂
  refine ⟨completion, concrete, ?_⟩
  rw [List.append_assoc]
  exact h₁.append join derivable

/-! ### Formers -/

/-- A demand is completed by a concrete token that meets it. -/
theorem token (kind : TokenKind) : Viable g constant (.token kind) [] := by
  obtain ⟨t, concrete, met⟩ := kind.exists_concrete
  refine ⟨[t], ?_, 0, _, .token met⟩
  intro u hu
  obtain rfl := List.mem_singleton.mp hu
  exact concrete

/-- A call is completed as the body of its rule is, under the flag that the call hands down. -/
theorem call {rule : Rule} {arg : ConstArg}
    (h : Viable g (arg.resolve constant) (g.get rule) before) :
    Viable g constant (.call rule arg) before :=
  h.map fun ⟨n, _, body⟩ => ⟨n + 1, _, .call body trivial⟩

theorem nil : Viable g constant (.sequence []) [] := of_derivable ⟨0, _, .nil⟩

theorem skip {body : Production} : Viable g constant (.optional body) [] :=
  of_derivable ⟨0, _, .skip⟩

/-- An optional production is completed as the one within it. -/
theorem enter {body : Production} (h : Viable g constant body before) :
    Viable g constant (.optional body) before :=
  h.map fun ⟨n, parts, inside⟩ => ⟨n, parts, .enter inside⟩

theorem done {body : Production} : Viable g constant (.many body) [] :=
  of_derivable ⟨0, _, .done⟩

/-- A choice is completed as an alternative with an open gate is. -/
theorem branch {gate : Gate} {alternatives : List (Gate × Production)}
    (chosen : (gate, p) ∈ alternatives) (opens : gate.allows constant = true)
    (h : Viable g constant p before) : Viable g constant (.choice alternatives) before :=
  h.map fun ⟨n, parts, inside⟩ => ⟨n, parts, .branch chosen opens inside⟩

end Viable

end Lists

/-! ## Completion from nothing -/

namespace Production

mutual

/-- Whether a production can be completed from nothing under a flag, if the calls that are known
    to be so can. -/
def ends (known : Rule → Bool → Bool) (constant : Bool) : Production → Bool
  | .token _ => true
  | .call rule arg => known rule (arg.resolve constant)
  | .sequence items => allEnd known constant items
  | .optional _ => true
  | .many _ => true
  | .atLeastOne body => body.ends known constant
  | .choice alternatives => someEnds known constant alternatives

/-- The same, for productions in a row. -/
def allEnd (known : Rule → Bool → Bool) (constant : Bool) : List Production → Bool
  | [] => true
  | p :: rest => p.ends known constant && allEnd known constant rest

/-- The same, for one of the alternatives that are open. -/
def someEnds (known : Rule → Bool → Bool) (constant : Bool) :
    List (Gate × Production) → Bool
  | [] => false
  | (gate, p) :: rest =>
    gate.allows constant && p.ends known constant || someEnds known constant rest

end

mutual

/-- Whether each part of a production can be completed from nothing under a flag, if all calls
    can. -/
def passable (constant : Bool) : Production → Bool
  | .token _ => true
  | .call _ _ => true
  | .sequence items => allPassable constant items
  | .optional body => body.passable constant
  | .many body => body.passable constant
  | .atLeastOne body => body.passable constant
  | .choice alternatives =>
    someEnds (fun _ _ => true) constant alternatives && allPassableIn constant alternatives

/-- The same, for productions in a row. -/
def allPassable (constant : Bool) : List Production → Bool
  | [] => true
  | p :: rest => p.passable constant && allPassable constant rest

/-- The same, for alternatives. -/
def allPassableIn (constant : Bool) : List (Gate × Production) → Bool
  | [] => true
  | (_, p) :: rest => p.passable constant && allPassableIn constant rest

end

/-- Each alternative of a passable choice is passable. -/
theorem passable_of_mem {constant : Bool} {gate : Gate} {p : Production}
    {alternatives : List (Gate × Production)} (chosen : (gate, p) ∈ alternatives)
    (h : allPassableIn constant alternatives = true) : p.passable constant = true := by
  induction alternatives with
  | nil => cases chosen
  | cons alternative rest ih =>
    obtain ⟨first, others⟩ := Bool.and_eq_true_iff.mp h
    rcases List.mem_cons.mp chosen with rfl | chosen
    · exact first
    · exact ih chosen others

section Ends

variable {g : Productions} {known : Rule → Bool → Bool} {constant : Bool}

mutual

/-- A production that ends, if the calls in `known` are known to end, can be derived from nothing.
    The recursion is that of `Production.ends`. -/
theorem viable_of_ends (calls : ∀ r flag, known r flag = true → Viable g flag (g.get r) []) :
    (p : Production) → p.ends known constant = true → Viable g constant p []
  | .token kind, _ => .token kind
  | .call rule arg, h => .call (calls rule (arg.resolve constant) h)
  | .sequence items, h => viable_of_allEnd calls items h
  | .optional _, _ => .skip
  | .many _, _ => .done
  | .atLeastOne body, h => .first .once (viable_of_ends calls body h) .done
  | .choice alternatives, h => by
    obtain ⟨gate, p, chosen, opens, viable⟩ := exists_viable_of_someEnds calls alternatives h
    exact viable.branch chosen opens

/-- The same, for productions in a row. -/
theorem viable_of_allEnd (calls : ∀ r flag, known r flag = true → Viable g flag (g.get r) []) :
    (items : List Production) → allEnd known constant items = true →
      Viable g constant (.sequence items) []
  | [], _ => .nil
  | p :: rest, h => by
    obtain ⟨first, others⟩ := Bool.and_eq_true_iff.mp h
    exact .first .cons (viable_of_ends calls p first) (viable_of_allEnd calls rest others)

/-- The same, for alternatives: one with an open gate ends. -/
theorem exists_viable_of_someEnds
    (calls : ∀ r flag, known r flag = true → Viable g flag (g.get r) []) :
    (alternatives : List (Gate × Production)) → someEnds known constant alternatives = true →
      ∃ gate p, (gate, p) ∈ alternatives ∧ gate.allows constant = true ∧ Viable g constant p []
  | [], h => nomatch h
  | (gate, p) :: rest, h => by
    rcases Bool.or_eq_true_iff.mp h with h | h
    · obtain ⟨opens, ends⟩ := Bool.and_eq_true_iff.mp h
      exact ⟨gate, p, List.mem_cons_self, opens, viable_of_ends calls p ends⟩
    · obtain ⟨gate, p, chosen, opens, viable⟩ := exists_viable_of_someEnds calls rest h
      exact ⟨gate, p, List.mem_cons_of_mem _ chosen, opens, viable⟩

end

mutual

/-- A passable production ends if all calls do. -/
theorem ends_of_passable : (p : Production) → p.passable constant = true →
    p.ends (fun _ _ => true) constant = true
  | .token _, _ => rfl
  | .call _ _, _ => rfl
  | .sequence items, h => allEnd_of_allPassable items h
  | .optional _, _ => rfl
  | .many _, _ => rfl
  | .atLeastOne body, h => ends_of_passable body h
  | .choice _, h => (Bool.and_eq_true_iff.mp h).1

/-- The same, for productions in a row. -/
theorem allEnd_of_allPassable : (items : List Production) → allPassable constant items = true →
    allEnd (fun _ _ => true) constant items = true
  | [], _ => rfl
  | p :: rest, h => by
    obtain ⟨first, others⟩ := Bool.and_eq_true_iff.mp h
    exact Bool.and_eq_true_iff.mpr ⟨ends_of_passable p first, allEnd_of_allPassable rest others⟩

end

end Ends

end Production

namespace Productions

/-- Whether a rule can be completed from nothing by rules nested so deep at most. -/
def endsWithin (g : Productions) : Nat → Rule → Bool → Bool
  | 0, _, _ => false
  | levels + 1, r, constant => (g.get r).ends (g.endsWithin levels) constant

/-- A rule that ends within some levels of calls can be derived from nothing. -/
theorem viable_of_endsWithin {g : Productions} {levels : Nat} {r : Rule} {constant : Bool}
    (h : g.endsWithin levels r constant = true) : Viable g constant (g.get r) [] := by
  induction levels generalizing r constant with
  | zero => cases h
  | succ levels ih => exact Production.viable_of_ends (fun _ _ => ih) (g.get r) h

/-- A grammar in which nothing has to be given up once it is begun. -/
structure Completable (g : Productions) : Prop where
  /-- Every rule can be completed from nothing under either flag. -/
  rules : ∀ r constant, Viable g constant (g.get r) []
  /-- And so can each part of its production. -/
  passable : ∀ r constant, (g.get r).passable constant = true

namespace Completable

variable {g : Productions} {constant : Bool} {p : Production}

/-- In a completable grammar each passable production can be derived. -/
theorem viable (h : g.Completable) (passable : p.passable constant = true) :
    Viable g constant p [] :=
  Production.viable_of_ends (fun r flag _ => h.rules r flag) p (Production.ends_of_passable p passable)

end Completable

end Productions

namespace Standard

set_option maxRecDepth 100000 in
/-- Nothing in the standard grammar has to be given up. -/
theorem completable : productions.Completable where
  rules r constant := by
    have all : ∀ r ∈ Rule.all, ∀ constant, productions.endsWithin 8 r constant = true := by
      decide +kernel
    exact Productions.viable_of_endsWithin (all r (Rule.mem_all r) constant)
  passable r constant := by
    have all : ∀ r ∈ Rule.all, ∀ constant, (productions.get r).passable constant = true := by
      decide +kernel
    exact all r (Rule.mem_all r) constant

end Standard

end GraphQL
