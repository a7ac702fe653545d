/-
  The first class that finds a lexeme has the longest one.

  The tokenizer tries the classes in an order and takes the first lexeme that is found, as far as the
  scanner of that class goes.  Two things are needed for this to be the longest lexeme of any class.  A
  scanner never stops short: what stands at the front and belongs to the class it measures in full, or
  goes on beyond it (`LexemeClass.le_measure`).  And of two classes that find something the one tried
  first goes at least as far (`LexemeClass.measure_le_of_first?`); for the first character leaves one
  class, or the two of numbers, or the two of strings.

  Classes are taken as sets of texts here (`LexemeClass.pattern`), of which nothing says how to match
  them.
-/
import GraphQL.Proofs.OpenStrings
import GraphQL.Proofs.Patterns
import Mathlib.Order.Bounds.Basic

namespace GraphQL

/-! ## Scanners do not stop short -/

/-- A run at the front is measured at least. -/
theorem le_runLength {p : Char → Bool} {run : List Char} (inside : ∀ c ∈ run, p c = true)
    (after : List Char) : run.length ≤ runLength p (run ++ after) := by
  rw [runLength, List.takeWhile_append_of_pos inside, List.length_append]
  exact Nat.le_add_right _ _

/-- What is measured behind a mark counts the mark. -/
theorem le_behind {m n : Nat} (some : m ≠ 0) (le : m ≤ n) :
    m + 1 ≤ if n = 0 then 0 else 1 + n := by
  rw [if_neg (by omega)]
  omega

/-- A natural number at the front is measured at least. -/
theorem Natural.le_measure {cs : List Char} (h : Natural cs) (after : List Char) :
    cs.length ≤ naturalLength (cs ++ after) := by
  cases h with
  | zero => exact Nat.le_refl 1
  | @digits c ds first others =>
    have run := le_runLength others after
    have noZero : c ≠ '0' := by
      rintro rfl
      cases first
    rw [List.cons_append, naturalLength.eq_2 c _ noZero, if_pos first, List.length_cons]
    omega

/-- So is a whole number. -/
theorem Whole.le_measure {cs : List Char} (h : Whole cs) (after : List Char) :
    cs.length ≤ intLength (cs ++ after) := by
  cases h with
  | plain natural =>
    have unsigned : (cs ++ after).head? ≠ some '-' := by
      obtain ⟨d, ds, rfl, digit⟩ := natural.head
      intro sign
      cases sign
      cases digit
    rw [intLength_of_ne unsigned]
    exact natural.le_measure after
  | negative natural => exact le_behind natural.pos (natural.le_measure after)

/-- So is a fraction. -/
theorem Fraction.le_measure {cs : List Char} (h : Fraction cs) (after : List Char) :
    cs.length ≤ fractionLength (cs ++ after) := by
  obtain @⟨ds, digits⟩ := h
  exact le_behind digits.pos (le_runLength digits.all after)

/-- So are digits with a sign or without. -/
theorem SignedDigits.le_measure {cs : List Char} (h : SignedDigits cs) (after : List Char) :
    cs.length ≤ signedDigitsLength (cs ++ after) := by
  cases h with
  | plain digits =>
    rw [signedDigitsLength_of_digits digits]
    exact le_runLength digits.all after
  | plus digits => exact le_behind digits.pos (le_runLength digits.all after)
  | minus digits => exact le_behind digits.pos (le_runLength digits.all after)

/-- So is an exponent. -/
theorem Exponent.le_measure {cs : List Char} (h : Exponent cs) (after : List Char) :
    cs.length ≤ exponentLength (cs ++ after) := by
  cases h with
  | lower signed => exact le_behind signed.pos (signed.le_measure after)
  | upper signed => exact le_behind signed.pos (signed.le_measure after)

/-- A float goes on behind its whole number as far as its parts do.  The whole number and a fraction
    in front of an exponent are measured exactly; only the last part may go on beyond the text. -/
theorem Floating.le_measure {cs : List Char} (h : Floating cs) (after : List Char) :
    cs.length ≤ floatLength (cs ++ after) := by
  -- the whole number ends at the point or at the exponent mark, so what follows the text can only
  -- add to the last part
  cases h with
  | @fraction whole fraction hw hf =>
    have some := hf.pos
    have further := hf.le_measure after
    rw [List.append_assoc, floatLength_append hw hf.stops, if_neg (by omega), List.length_append]
    omega
  | @exponent whole exponent hw he =>
    have some := he.pos
    have further := he.le_measure after
    rw [List.append_assoc, floatLength_append hw he.stops.1, he.stops.2, List.drop_zero,
      Nat.zero_add, if_neg (by omega), List.length_append]
    omega
  | @both whole fraction exponent hw hf he =>
    have some := hf.pos
    have further := he.le_measure after
    rw [List.append_assoc, List.append_assoc, floatLength_append hw hf.stops,
      hf.measure he.stops.1, List.drop_left, if_neg (by omega), List.length_append,
      List.length_append]
    omega

theorem le_literalLength (text after : List Char) :
    text.length ≤ literalLength text (text ++ after) := by
  have front : text.isPrefixOf (text ++ after) = true :=
    List.isPrefixOf_iff_prefix.mpr (List.prefix_append ..)
  rw [literalLength, if_pos front]

namespace LexemeClass

/-- A scanner goes at least as far as any text of its class that stands at the front. -/
theorem le_measure {k : LexemeClass} {text : List Char} (h : k.Language text)
    (after : List Char) : text.length ≤ k.measure (text ++ after) := by
  cases k with
  | blank => exact le_runLength h.2 after
  | byteOrderMark | comma | mark =>
    cases h
    exact le_literalLength _ after
  | lineEnd =>
    rcases h with rfl | rfl | rfl
    · exact Nat.le_refl 2
    · show 1 ≤ lineEndLength ('\r' :: after)
      -- a CR goes on over an LF
      unfold lineEndLength
      split
      · exact Nat.le_succ 1
      · exact Nat.le_refl 1
      · exact Nat.le_refl 1
      · rename_i noReturn _
        exact absurd rfl (noReturn after)
    · exact Nat.le_refl 1
  | comment =>
    obtain ⟨text, rfl, within⟩ := h
    have run := le_runLength within after
    show text.length + 1 ≤ 1 + runLength isWithinLine (text ++ after)
    omega
  | word =>
    obtain ⟨c, rest, rfl, start, parts⟩ := h
    have run := le_runLength parts after
    show rest.length + 1 ≤ if isNameStart c then 1 + runLength isNamePart (rest ++ after) else 0
    rw [if_pos start]
    omega
  | float => exact Floating.le_measure h after
  | int => exact Whole.le_measure h after
  | blockString =>
    obtain ⟨body, rfl, inside⟩ := h
    simp only [measure, List.cons_append, blockStringLength, inside.measure after,
      List.length_cons]
    omega
  | inlineString =>
    obtain ⟨body, rfl, inside⟩ := h
    simp only [measure, List.cons_append, inlineStringLength, inside.measure after,
      List.length_cons]
    omega

/-! ## The class that is found goes furthest -/

/-- Classes that begin alike are the same, or the two of numbers, or the two of strings. -/
theorem eq_of_family {k l : LexemeClass} (alike : k.family = l.family) :
    k = l ∨ (k = .int ∧ l = .float) ∨ (k = .float ∧ l = .int) ∨
      (k = .inlineString ∧ l = .blockString) ∨ (k = .blockString ∧ l = .inlineString) := by
  cases k <;> cases l <;> first | (simp [family] at alike ⊢; done) | simp_all [family]

/-- A float goes on behind its whole number. -/
theorem intLength_le_floatLength {cs : List Char} (h : 0 < floatLength cs) :
    intLength cs ≤ floatLength cs := by
  unfold floatLength at h ⊢
  simp only at h ⊢
  split at h
  · cases h
  · rename_i some
    rw [if_neg some]
    omega

/-- Where a block string stands, only two quotes are an inline string. -/
theorem inlineStringLength_le_blockStringLength {cs : List Char} (h : 0 < blockStringLength cs) :
    inlineStringLength cs ≤ blockStringLength cs := by
  unfold blockStringLength at h ⊢
  split at h
  · rename_i rest
    have two : inlineStringLength ('"' :: '"' :: '"' :: rest) = 2 := rfl
    cases closed : blockBodyLength rest with
    | none =>
      rw [closed] at h
      cases h
    | some n =>
      show inlineStringLength ('"' :: '"' :: '"' :: rest) ≤ 3 + n
      omega
  · cases h

/-- No class has a lexeme in front of nothing. -/
theorem measure_nil (k : LexemeClass) : k.measure [] = 0 := by
  refine Nat.eq_zero_of_not_pos fun measured => ne_nil_of_language (language_take measured) ?_
  exact List.take_nil

/-- The class that is found goes at least as far as any other that has a lexeme there. -/
theorem measure_le_of_first? {cs : List Char} {k l : LexemeClass} (found : first? cs = some k)
    (measured : 0 < l.measure cs) : l.measure cs ≤ k.measure cs := by
  have first := measure_pos_of_first? found
  cases cs with
  | nil =>
    rw [measure_nil] at first
    cases first
  | cons c cs =>
    have alike : l.family = k.family :=
      Option.some.inj ((lead_eq measured).symm.trans (lead_eq first))
    obtain rfl | ⟨rfl, rfl⟩ | ⟨rfl, rfl⟩ | ⟨rfl, rfl⟩ | ⟨rfl, rfl⟩ := eq_of_family alike
    · exact Nat.le_refl _
    · exact intLength_le_floatLength first
    · -- a float would have been found before the whole number
      cases found.symm.trans (first?_of_float measured)
    · exact inlineStringLength_le_blockStringLength first
    · cases found.symm.trans (first?_of_blockString measured)

end LexemeClass

/-! ## The longest prefix -/

/-- The lengths in bytes of the prefixes of a text that belong to any class of the table. -/
def lexemeLengths (cs : List Char) : Set Nat :=
  {n | ∃ k ∈ LexemeClass.table, ∃ text, text <+: cs ∧ text ∈ k.pattern ∧ utf8Length text = n}

/-- Of two prefixes of a text the shorter one has no more bytes. -/
theorem utf8Length_le_of_prefix {a b cs : List Char} (ha : a <+: cs) (hb : b <+: cs)
    (le : a.length ≤ b.length) : utf8Length a ≤ utf8Length b := by
  obtain ⟨rest, rfl⟩ := List.prefix_of_prefix_length_le ha hb le
  rw [utf8Length_append]
  exact Nat.le_add_right _ _

/-- Where a class is found, its lexeme is the longest prefix that belongs to any class. -/
theorem isGreatest_of_first? {cs : List Char} {k : LexemeClass}
    (found : LexemeClass.first? cs = some k) :
    IsGreatest (lexemeLengths cs) (utf8Length (cs.take (k.measure cs))) := by
  have belongs := LexemeClass.language_take (LexemeClass.measure_pos_of_first? found)
  refine ⟨⟨k, LexemeClass.mem_table k, _, List.take_prefix .., LexemeClass.mem_pattern_iff.mpr belongs,
    rfl⟩, ?_⟩
  rintro n ⟨l, -, text, ⟨after, rfl⟩, htext, rfl⟩
  have language := LexemeClass.mem_pattern_iff.mp htext
  have some : 0 < text.length := List.length_pos_iff.mpr (LexemeClass.ne_nil_of_language language)
  have reach := LexemeClass.le_measure language after
  -- its own scanner reaches over the prefix, and the one that was found as far as that
  have furthest := LexemeClass.measure_le_of_first? found (Nat.lt_of_lt_of_le some reach)
  refine utf8Length_le_of_prefix (List.prefix_append ..) (List.take_prefix ..) ?_
  rw [List.length_take, List.length_append] at *
  omega

/-- Where none is found, no prefix belongs to any class. -/
theorem lexemeLengths_of_first?_eq_none {cs : List Char} (none : LexemeClass.first? cs = none) :
    lexemeLengths cs = ∅ := by
  refine Set.eq_empty_iff_forall_notMem.mpr ?_
  rintro n ⟨k, hk, text, ⟨after, rfl⟩, htext, -⟩
  have language := LexemeClass.mem_pattern_iff.mp htext
  have some : 0 < text.length := List.length_pos_iff.mpr (LexemeClass.ne_nil_of_language language)
  have reach := LexemeClass.le_measure language after
  refine List.find?_eq_none.mp none k hk (decide_eq_true ?_)
  exact Nat.lt_of_lt_of_le some reach

/-! ## Pieces -/

/-- A lexeme, in front of the rest of its text, is the longest prefix that belongs to any class; and
    no prefix belongs to any where a character is astray. -/
def Piece.Longest : Piece → List Char → Prop
  | .lexeme _ text, after => IsGreatest (lexemeLengths (text ++ after)) (utf8Length text)
  | .stray text, after =>
    ∀ skipped rest, text = skipped ++ rest → rest ≠ [] → lexemeLengths (rest ++ after) = ∅

/-- One more stray character in front. -/
theorem Piece.longest_stray_cons {c : Char} {text after : List Char}
    (first : lexemeLengths (c :: (text ++ after)) = ∅) (others : (Piece.stray text).Longest after) :
    (Piece.stray (c :: text)).Longest after := by
  intro skipped rest split some
  cases skipped with
  | nil =>
    obtain rfl : c :: text = rest := split
    exact first
  | cons d skipped => exact others skipped rest (List.cons.inj split).2 some

/-- Each piece of a text is as long as can be.  Induction along the pieces; a stray character joins
    the run behind it, if one stands there. -/
theorem longest_pieces (cs : List Char) {before after : List Piece} {p : Piece}
    (split : pieces cs = before ++ p :: after) : p.Longest (after.map Piece.text).flatten := by
  fun_induction pieces cs generalizing before after p with
  | case1 => exact absurd split (by simp)
  | case2 c rest kind found ih =>
    -- a lexeme begins here: it is the piece, or the piece comes behind it
    cases before with
    | nil =>
      obtain ⟨rfl, rfl⟩ := List.cons.inj split
      rw [pieces_flatten]
      show IsGreatest (lexemeLengths (List.take _ _ ++ List.drop _ _)) _
      rw [List.take_append_drop]
      exact isGreatest_of_first? found
    | cons q before => exact ih (List.cons.inj split).2
  | case3 c rest none ih =>
    -- nothing begins here: the character joins the stray ones behind it, or is one alone
    have text := pieces_flatten rest
    have first := lexemeLengths_of_first?_eq_none none
    unfold Piece.consStray at split
    split at split
    · -- stray characters follow, and no lexeme begins at any of them either
      rename_i run others same
      cases before with
      | nil =>
        obtain ⟨rfl, rfl⟩ := List.cons.inj split
        rw [same, List.map_cons, List.flatten_cons] at text
        rw [← text] at first
        exact Piece.longest_stray_cons first (ih (show pieces rest = [] ++ _ from same))
      | cons q before =>
        obtain ⟨-, rfl⟩ := List.cons.inj split
        exact ih (show pieces rest = (.stray run :: before) ++ _ from same)
    · -- a lexeme follows, or nothing
      cases before with
      | nil =>
        obtain ⟨rfl, rfl⟩ := List.cons.inj split
        rw [text]
        refine Piece.longest_stray_cons first fun skipped rest split some => absurd ?_ some
        exact (List.append_eq_nil_iff.mp split.symm).2
      | cons q before => exact ih (List.cons.inj split).2

/-- A placed piece stands behind the pieces before it. -/
theorem Placed.exists_before {start : Position} {ps : List Piece} {q : Placed}
    (hq : q ∈ chain start ps) :
    ∃ before after, ps = before ++ q.piece :: after ∧
      q.start.offset = start.offset + utf8Length (before.map Piece.text).flatten := by
  induction ps generalizing start with
  | nil => cases hq
  | cons p rest ih =>
    rcases List.mem_cons.mp hq with rfl | hq
    · exact ⟨[], rest, rfl, rfl⟩
    · obtain ⟨before, after, same, place⟩ := ih hq
      refine ⟨p :: before, after, congrArg (p :: ·) same, ?_⟩
      rw [place, Position.offset_advance, List.map_cons, List.flatten_cons, utf8Length_append,
        Nat.add_assoc]

/-- The tokenizer takes the longest lexeme.  Cut any text into its pieces and place them; at the
    offset of each piece the text goes on with it.  If it is a lexeme, a token or ignored, its
    length is the greatest of the lengths of prefixes of what is left that belong to any class of
    the table.  If it is a run of stray characters, then at no character of the run does a prefix of
    what is left belong to any class. -/
theorem longest_lexemes_taken (source : String) :
    ∀ q ∈ Placed.chain {} (pieces source.toList), ∃ before after,
      source.toList = before ++ (q.piece.text ++ after) ∧
      q.start.offset = utf8Length before ∧ q.piece.Longest after := by
  intro q hq
  obtain ⟨before, after, same, place⟩ := Placed.exists_before hq
  refine ⟨(before.map Piece.text).flatten, (after.map Piece.text).flatten, ?_, ?_,
    longest_pieces source.toList same⟩
  · have text := pieces_flatten source.toList
    rw [same, List.map_append, List.flatten_append, List.map_cons, List.flatten_cons] at text
    exact text.symm
  · exact place.trans (Nat.zero_add _)

/-- A number that goes on like one with an exponent, but has none. -/
def brokenExponent : String := "1.5e+"

/-- The number ends before the mark of the exponent, and three bytes are the most that any class has
    there. -/
theorem longest_lexemes_taken_brokenExponent :
    ∃ q ∈ Placed.chain {} (pieces brokenExponent.toList),
      q.piece = .lexeme .float ['1', '.', '5'] ∧
      IsGreatest (lexemeLengths ['1', '.', '5', 'e', '+']) 3 := by
  have placed : (⟨.lexeme .float ['1', '.', '5'], {}, { column := 3, units := 3, offset := 3 }⟩ : Placed)
      ∈ Placed.chain {} (pieces brokenExponent.toList) := by decide +kernel
  obtain ⟨before, after, split, place, longest⟩ := longest_lexemes_taken brokenExponent _ placed
  cases before with
  | nil =>
    have number : ['1', '.', '5'] ++ ['e', '+'] = ['1', '.', '5'] ++ after := split
    obtain rfl := List.append_cancel_left number
    exact ⟨_, placed, rfl, longest⟩
  | cons c before =>
    have wide := c.utf8Size_pos
    have front : 0 = c.utf8Size + utf8Length before := place
    omega

end GraphQL
