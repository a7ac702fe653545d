/-
  The tokens of a text stand in order.

  A text is taken apart into pieces, and no piece is empty (`text_ne_nil_of_mem_pieces`).  Set one
  after the other they begin at greater and greater offsets, and so do the tokens among them
  (`pairwise_tokens_ofSource`).  In particular no token of a text is there twice, although two
  tokens may have the same kind and text.
-/
import GraphQL.Token
import Mathlib.Data.List.Pairwise

namespace GraphQL

/-! ## Pieces -/

/-- No piece is empty after a stray character is put in front. -/
theorem text_ne_nil_of_mem_consStray {c : Char} {ps : List Piece} (h : ∀ p ∈ ps, p.text ≠ [])
    {p : Piece} (hp : p ∈ Piece.consStray c ps) : p.text ≠ [] := by
  unfold Piece.consStray at hp
  split at hp
  · rcases List.mem_cons.mp hp with rfl | hp
    · exact List.cons_ne_nil _ _
    · exact h p (List.mem_cons_of_mem _ hp)
  · rcases List.mem_cons.mp hp with rfl | hp
    · exact List.cons_ne_nil _ _
    · exact h p hp

/-- No piece of a text is empty. -/
theorem text_ne_nil_of_mem_pieces {cs : List Char} {p : Piece} (hp : p ∈ pieces cs) :
    p.text ≠ [] := by
  fun_induction pieces cs generalizing p with
  | case1 => cases hp
  | case2 c rest kind first ih =>
    rcases List.mem_cons.mp hp with rfl | hp
    · have positive := LexemeClass.measure_pos_of_first? first
      exact fun h => by simp [Piece.text, Nat.ne_of_gt positive] at h
    · exact ih hp
  | case3 c rest _ ih => exact text_ne_nil_of_mem_consStray (fun p => ih) hp

/-! ## Offsets -/

theorem utf8Length_pos {cs : List Char} (h : cs ≠ []) : 0 < utf8Length cs := by
  cases cs with
  | nil => exact absurd rfl h
  | cons c rest => exact Nat.lt_of_lt_of_le c.utf8Size_pos (Nat.le_add_right ..)

namespace Placed

/-- No piece begins before the place of the first. -/
theorem offset_le_of_mem_chain {start : Position} {ps : List Piece} {q : Placed}
    (hq : q ∈ chain start ps) : start.offset ≤ q.start.offset := by
  induction ps generalizing start with
  | nil => cases hq
  | cons p rest ih =>
    rcases List.mem_cons.mp hq with rfl | hq
    · exact Nat.le_refl _
    · have further := ih hq
      rw [Position.offset_advance] at further
      omega

/-- The pieces of a chain are those that were set one after the other. -/
theorem piece_of_mem_chain {start : Position} {ps : List Piece} {q : Placed}
    (h : q ∈ chain start ps) : q.piece ∈ ps := by
  induction ps generalizing start with
  | nil => cases h
  | cons p rest ih =>
    rcases List.mem_cons.mp h with rfl | h
    · exact List.mem_cons_self
    · exact List.mem_cons_of_mem _ (ih h)

/-- A placed piece ends where its text does. -/
theorem stop_of_mem_chain {start : Position} {ps : List Piece} {q : Placed}
    (hq : q ∈ chain start ps) : q.stop = q.start.advance q.piece.text := by
  induction ps generalizing start with
  | nil => cases hq
  | cons p rest ih =>
    rcases List.mem_cons.mp hq with rfl | hq
    · rfl
    · exact ih hq

/-- Pieces that are not empty begin at greater and greater offsets. -/
theorem pairwise_chain {start : Position} {ps : List Piece} (h : ∀ p ∈ ps, p.text ≠ []) :
    (chain start ps).Pairwise fun a b => a.start.offset < b.start.offset := by
  induction ps generalizing start with
  | nil => exact .nil
  | cons p rest ih =>
    refine .cons (fun q hq => ?_) (ih fun p hp => h p (List.mem_cons_of_mem _ hp))
    have positive := utf8Length_pos (h p List.mem_cons_self)
    have further := offset_le_of_mem_chain hq
    rw [Position.offset_advance] at further
    show start.offset < q.start.offset
    omega

/-- A token stands where its piece does. -/
theorem span_of_token? {file : Option String} {p : Placed} {t : Token}
    (h : p.token? file = some t) : t.span = p.span file := by
  unfold token? at h
  split at h
  · obtain ⟨kind, -, rfl⟩ := Option.map_eq_some_iff.mp h
    rfl
  · cases h

/-- A token begins where its piece does, and no piece is an inserted token. -/
theorem start_of_token? {file : Option String} {p : Placed} {t : Token}
    (h : p.token? file = some t) : t.span.start = p.start ∧ t.inserted = false := by
  unfold token? at h
  split at h
  · obtain ⟨kind, -, rfl⟩ := Option.map_eq_some_iff.mp h
    exact ⟨rfl, rfl⟩
  · cases h

end Placed

/-! ## Tokens -/

namespace Token

/-- One token begins before another. -/
def Before (a b : Token) : Prop := a.span.start.offset < b.span.start.offset

/-- Whether one token begins no later than another. -/
def notAfter (a b : Token) : Bool := a.span.start.offset ≤ b.span.start.offset

end Token

variable (source : String) (file : Option String)

/-- The tokens of a text begin at greater and greater offsets. -/
theorem pairwise_tokens_ofSource : (Scan.ofSource source file).tokens.Pairwise Token.Before := by
  have ordered : (Placed.chain {} (pieces source.toList)).Pairwise _ :=
    Placed.pairwise_chain fun p => text_ne_nil_of_mem_pieces
  refine List.Pairwise.filterMap _ (fun p q h t ht u hu => ?_) ordered
  unfold Token.Before
  rwa [(Placed.start_of_token? ht).1, (Placed.start_of_token? hu).1]

/-- A text shows no inserted tokens. -/
theorem inserted_of_mem_ofSource {t : Token} (h : t ∈ (Scan.ofSource source file).tokens) :
    t.inserted = false := by
  obtain ⟨p, -, ht⟩ := List.mem_filterMap.mp h
  exact (Placed.start_of_token? ht).2

/-- No token of a text ends before it begins. -/
theorem offset_le_of_mem_ofSource {t : Token} (h : t ∈ (Scan.ofSource source file).tokens) :
    t.span.start.offset ≤ t.span.stop.offset := by
  obtain ⟨p, hp, ht⟩ := List.mem_filterMap.mp h
  have stop : p.stop = p.start.advance p.piece.text := Placed.stop_of_mem_chain hp
  rw [Placed.span_of_token? ht]
  show p.start.offset ≤ p.stop.offset
  rw [stop, Position.offset_advance]
  exact Nat.le_add_right ..

/-! ## Lists of tokens in order -/

/-- No token stands twice among tokens in order. -/
theorem nodup_of_before {tokens : List Token} (h : tokens.Pairwise Token.Before) :
    tokens.Nodup := by
  refine List.Pairwise.imp (fun {a b} before same => ?_) h
  subst same
  exact Nat.lt_irrefl _ before

/-- Tokens in order that begin at one offset are one token. -/
theorem eq_of_offset_eq {tokens : List Token} (ordered : tokens.Pairwise Token.Before)
    {a b : Token} (ha : a ∈ tokens) (hb : b ∈ tokens)
    (same : a.span.start.offset = b.span.start.offset) : a = b := by
  have apart : tokens.Pairwise fun a b => a.span.start.offset ≠ b.span.start.offset :=
    ordered.imp Nat.ne_of_lt
  have : Std.Symm fun a b : Token => a.span.start.offset ≠ b.span.start.offset :=
    ⟨fun _ _ => Ne.symm⟩
  exact Decidable.byContradiction fun hne => apart.forall ha hb hne same

/-- Sorting tokens by their offsets gives the list in order that has the same tokens. -/
theorem mergeSort_eq_of_perm {found tokens : List Token} (perm : found.Perm tokens)
    (ordered : tokens.Pairwise Token.Before) : found.mergeSort Token.notAfter = tokens := by
  have sorted : (found.mergeSort Token.notAfter).Pairwise (Token.notAfter · ·) :=
    List.pairwise_mergeSort (fun a b c hab hbc => by simp_all [Token.notAfter]; omega)
      (fun a b => by simp [Token.notAfter]; omega) found
  have same := (List.mergeSort_perm found Token.notAfter).trans perm
  refine List.Perm.eq_of_pairwise (fun a b ha hb hab hba => ?_) sorted
    (ordered.imp fun {a b} h => decide_eq_true (Nat.le_of_lt h)) same
  exact eq_of_offset_eq ordered (same.mem_iff.mp ha) hb
    (Nat.le_antisymm (of_decide_eq_true hab) (of_decide_eq_true hba))

end GraphQL
