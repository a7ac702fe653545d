/-
  Every part of a tree can be read by itself.

  In a parse without mistakes each node was read from a stretch of the tokens.  Read again by
  itself, with the rule of the node as the entry rule, that stretch gives the same node and no
  mistake, although three things are different: the end of the input stands where other tokens came,
  variables are allowed where perhaps they were not, and no other rule is active.

  None of the three matters to a derivation (`Relocation`), and the derivation is found again, since
  every rule of the standard grammar may stand before the end (`OpenFollow`).
-/
import GraphQL.Proofs.Clauses
import GraphQL.Proofs.OpenFollow
import GraphQL.Proofs.Relocation
import Mathlib.Data.List.Perm.Basic

namespace GraphQL

namespace Standard

set_option maxRecDepth 100000 in
/-- No alternative of the standard grammar is open to constants alone. -/
theorem whenConst_not_mem_gates (r : Rule) : .whenConst ∉ (productions.get r).gates := by
  have all : ∀ r ∈ Rule.all, .whenConst ∉ (productions.get r).gates := by decide +kernel
  exact all r (Rule.mem_all r)

/-- Before the end of the input no clause in braces is missing. -/
theorem allowedAlike_nil (rest : List Token) : AllowedAlike NoDangling rest [] := by
  intro rule parts front fits clause hclause unused t next
  rw [List.append_nil] at next
  have first : t ∈ (front ++ rest).head? := by
    cases front with
    | nil => cases next
    | cons u front => exact next
  exact fits clause hclause unused t first

/-- Each node of a derivation is derived by itself, of a stretch of the tokens and nothing else. -/
theorem exists_alone {n : Nat} {p : Production} {constant : Bool} {tokens rest : List Token}
    {parts : List Part} (h : Derives productions NoDangling n constant p tokens parts rest)
    {label : Label} {node m : Node} (part : (label, .node node) ∈ parts) (within : m.Within node) :
    ∃ before taken after, tokens = before ++ taken ++ after ∧
      Derives productions NoDangling n false (.call m.rule (.fixed false)) taken
        [(.rule m.rule, .node m)] [] := by
  obtain ⟨start, stop, k, flag, front, -, deep, derives⟩ := h.exists_stretch part within
  obtain ⟨before, rfl⟩ := front
  obtain ⟨taken, rfl, move⟩ := derives.movable
  have moved := move [] (allowedAlike_nil stop)
  rw [List.append_nil] at moved
  refine ⟨before, taken, stop, (List.append_assoc ..).symm, ?_⟩
  exact (moved.call_unrestrict whenConst_not_mem_gates).deeper deep

end Standard

/-- Every node of a parse without mistakes is read again by itself: its tokens stand together in the
    input, and a parse of these tokens alone, from the rule of the node, records nothing and gives
    the node.  Where no token stands twice in the input, its tokens stand together in one place
    only. -/
theorem node_reparses {g : Grammar} (standard : Standard.grammar? = .ok g) {entry : Rule}
    {tokens : List Token} {tree : Node} (clean : g.parse entry tokens = ⟨some tree, []⟩) {n : Node}
    (within : n.Within tree) :
    ∃ before taken after, tokens = before ++ taken ++ after ∧ n.leaves.Perm taken ∧
      (tokens.Nodup → ∀ other, other <:+: tokens → n.leaves.Perm other → other = taken) ∧
      g.parse n.rule taken = ⟨some n, []⟩ := by
  obtain rfl : Standard.grammar = g := Except.ok.inj (Standard.grammar?_eq.symm.trans standard)
  have derives := Standard.exists_derivation clean
  -- the node is derived from a stretch of the tokens alone
  obtain ⟨before, taken, after, htokens, alone⟩ :=
    Standard.exists_alone derives (List.mem_singleton_self _) within
  have perm : n.leaves.Perm taken := by
    obtain ⟨all, hall, perm⟩ := alone.exists_taken
    rw [leavesOfParts_node] at perm
    rwa [hall, List.append_nil]
  refine ⟨before, taken, after, htokens, perm, ?_, ?_⟩
  · -- these are its tokens, and no other stretch has the same ones
    intro nodup other inside perm'
    have inside' : taken <:+: tokens := ⟨before, after, htokens.symm⟩
    have same : other.Perm taken := perm'.symm.trans perm
    exact (List.Nodup.perm_iff_eq_of_sublist nodup inside.sublist inside'.sublist).mp same
  · -- and they are parsed into the node again
    exact parse_of_derives Standard.predictive_openTable (Standard.endOfInput_mem_openTable _) alone

set_option maxRecDepth 100000 in
/-- The field of a selection is read again by itself. -/
theorem node_reparses_field :
    ∃ tree field : Node, Standard.grammar.parse .document aliasTokens = ⟨some tree, []⟩ ∧
      field.Within tree ∧ field.rule = .field ∧
      ∃ before taken after, aliasTokens = before ++ taken ++ after ∧ field.leaves.Perm taken ∧
        (aliasTokens.Nodup → ∀ other, other <:+: aliasTokens → field.leaves.Perm other →
          other = taken) ∧
        Standard.grammar.parse field.rule taken = ⟨some field, []⟩ := by
  obtain ⟨none, found⟩ : (Standard.grammar.parse .document aliasTokens).errors = [] ∧
      ((Standard.grammar.parse .document aliasTokens).tree.bind fun tree =>
        [.definition, .executableDefinition, .operationDefinition, .selectionSet, .selection,
          .field].foldlM Node.node? tree).any (fun m => m.rule == .field) = true := by
    decide +kernel
  obtain ⟨field, hfield, rule⟩ := (Option.any_eq_true _ _).mp found
  obtain ⟨tree, htree, path⟩ := Option.bind_eq_some_iff.mp hfield
  have clean := Grammar.Parse.eq_of_clean htree none
  have within := Node.within_of_path _ path
  exact ⟨tree, field, clean, within, by simpa using rule,
    node_reparses Standard.grammar?_eq clean within⟩

end GraphQL
