/-
  The classes of lexemes as regular expressions.

  A pattern is the set of texts that a regular expression stands for, put together by union,
  concatenation and repetition and not by any way of matching it.  There is one for each class of
  lexemes but block strings, whose pattern is what their scanner takes as a whole.

  That the patterns are the languages that lexemes belong to (`LexemeClass.mem_pattern_iff`) is shown
  part by part: a set of texts for each part of a number or of a string, and below it the theorem that
  it is the one that was given by inference rules.
-/
import GraphQL.Proofs.Lexemes
import Mathlib.Computability.Language

open scoped Computability

namespace GraphQL

/-! ## Sets of texts -/

/-- A set of texts, with union, concatenation and repetition. -/
abbrev Texts := Language Char

namespace Texts

/-- A single character of a class. -/
def oneOf (p : Char → Bool) : Texts := {cs | ∃ c, p c = true ∧ cs = [c]}

/-- One text alone. -/
def exactly (text : List Char) : Texts := {text}

/-- What may be left out. -/
def optionally (L : Texts) : Texts := 1 + L

/-- What stands once or more often. -/
def repeatedly (L : Texts) : Texts := L * L∗

variable {p : Char → Bool} {cs text : List Char} {L M : Texts}

theorem mem_oneOf : cs ∈ oneOf p ↔ ∃ c, p c = true ∧ cs = [c] := Iff.rfl

theorem mem_exactly : cs ∈ exactly text ↔ cs = text := Iff.rfl

/-- What begins with a given text. -/
theorem mem_exactly_mul : cs ∈ exactly text * L ↔ ∃ rest ∈ L, cs = text ++ rest := by
  rw [Language.mem_mul]
  constructor
  · rintro ⟨_, rfl, rest, hrest, rfl⟩
    exact ⟨rest, hrest, rfl⟩
  · rintro ⟨rest, hrest, rfl⟩
    exact ⟨text, rfl, rest, hrest, rfl⟩

/-- What begins with a character of a class. -/
theorem mem_oneOf_mul : cs ∈ oneOf p * L ↔ ∃ c, ∃ rest ∈ L, p c = true ∧ cs = c :: rest := by
  rw [Language.mem_mul]
  constructor
  · rintro ⟨_, ⟨c, hc, rfl⟩, rest, hrest, rfl⟩
    exact ⟨c, rest, hrest, hc, rfl⟩
  · rintro ⟨c, rest, hrest, hc, rfl⟩
    exact ⟨[c], ⟨c, hc, rfl⟩, rest, hrest, rfl⟩

/-- A part that may be left out stands in front, or it does not. -/
theorem mem_optionally_mul : cs ∈ optionally L * M ↔ cs ∈ M ∨ cs ∈ L * M := by
  rw [optionally, add_mul, one_mul]
  exact Iff.rfl

/-- What ends in an optional part has it or does not. -/
theorem mem_mul_optionally : cs ∈ L * optionally M ↔ cs ∈ L ∨ cs ∈ L * M := by
  rw [optionally, mul_add, mul_one]
  exact Iff.rfl

/-- Repeating goes on with one more, or it is at its end. -/
theorem mem_kstar_iff : cs ∈ L∗ ↔ cs = [] ∨ cs ∈ L * L∗ := by
  have unfolded : L∗ = 1 + L * L∗ := (Language.one_add_self_mul_kstar_eq_kstar L).symm
  exact Iff.of_eq (congrArg (cs ∈ ·) unfolded)

/-- Repeating a class of characters gives the texts all of whose characters belong to it. -/
theorem mem_kstar_oneOf : cs ∈ (oneOf p)∗ ↔ ∀ c ∈ cs, p c = true := by
  induction cs with
  | nil => exact ⟨fun _ _ => nofun, fun _ => Language.nil_mem_kstar _⟩
  | cons c cs ih =>
    rw [mem_kstar_iff, mem_oneOf_mul, List.forall_mem_cons, ← ih]
    constructor
    · rintro (none | ⟨_, _, hrest, hc, same⟩)
      · cases none
      · cases same
        exact ⟨hc, hrest⟩
    · rintro ⟨hc, hcs⟩
      exact .inr ⟨c, cs, hcs, hc, rfl⟩

/-- A class of characters, repeated, is a run of that class that is not empty. -/
theorem mem_repeatedly_oneOf : cs ∈ repeatedly (oneOf p) ↔ cs ≠ [] ∧ ∀ c ∈ cs, p c = true := by
  rw [repeatedly, mem_oneOf_mul]
  constructor
  · rintro ⟨c, rest, hrest, hc, rfl⟩
    exact ⟨List.cons_ne_nil c rest, List.forall_mem_cons.mpr ⟨hc, mem_kstar_oneOf.mp hrest⟩⟩
  · rintro ⟨some, all⟩
    obtain ⟨c, rest, rfl⟩ := List.exists_cons_of_ne_nil some
    obtain ⟨hc, hrest⟩ := List.forall_mem_cons.mp all
    exact ⟨c, rest, mem_kstar_oneOf.mpr hrest, hc, rfl⟩

/-! ## Numbers -/

/-- A natural number without leading zeros, with an optional minus sign. -/
def integerPart : Texts :=
  optionally (exactly ['-']) * (exactly ['0'] + oneOf isNonzeroDigit * (oneOf isDigit)∗)

/-- A point and digits. -/
def fractionalPart : Texts := exactly ['.'] * repeatedly (oneOf isDigit)

/-- A mark, an optional sign, and digits. -/
def exponentPart : Texts :=
  oneOf (fun c => c == 'e' || c == 'E')
    * (optionally (oneOf fun c => c == '+' || c == '-') * repeatedly (oneOf isDigit))

theorem mem_digits : cs ∈ repeatedly (oneOf isDigit) ↔ Digits cs :=
  mem_repeatedly_oneOf.trans ⟨fun h => ⟨h.1, h.2⟩, fun h => ⟨h.some, h.all⟩⟩

/-- The pattern of a natural number is its language. -/
theorem mem_natural :
    cs ∈ exactly ['0'] + oneOf isNonzeroDigit * (oneOf isDigit)∗ ↔ Natural cs := by
  rw [Language.mem_add, mem_exactly, mem_oneOf_mul]
  constructor
  · rintro (rfl | ⟨c, rest, hrest, hc, rfl⟩)
    · exact .zero
    · exact .digits hc (mem_kstar_oneOf.mp hrest)
  · intro h
    cases h with
    | zero => exact .inl rfl
    | @digits c ds first others => exact .inr ⟨c, ds, mem_kstar_oneOf.mpr others, first, rfl⟩

/-- The pattern of a whole number is its language. -/
theorem mem_integerPart : cs ∈ integerPart ↔ Whole cs := by
  rw [integerPart, mem_optionally_mul, mem_exactly_mul, mem_natural]
  constructor
  · rintro (natural | ⟨rest, hrest, rfl⟩)
    · exact .plain natural
    · exact .negative (mem_natural.mp hrest)
  · intro h
    cases h with
    | plain natural => exact .inl natural
    | @negative cs natural => exact .inr ⟨cs, mem_natural.mpr natural, rfl⟩

/-- The pattern of a fraction is its language. -/
theorem mem_fractionalPart : cs ∈ fractionalPart ↔ Fraction cs := by
  rw [fractionalPart, mem_exactly_mul]
  constructor
  · rintro ⟨ds, digits, rfl⟩
    exact .point (mem_digits.mp digits)
  · rintro @⟨ds, digits⟩
    exact ⟨ds, mem_digits.mpr digits, rfl⟩

/-- The pattern of signed digits is their language. -/
theorem mem_signedDigits :
    cs ∈ optionally (oneOf fun c => c == '+' || c == '-') * repeatedly (oneOf isDigit)
      ↔ SignedDigits cs := by
  rw [mem_optionally_mul, mem_oneOf_mul, mem_digits]
  constructor
  · rintro (digits | ⟨c, ds, digits, sign, rfl⟩)
    · exact .plain digits
    · obtain rfl | rfl : c = '+' ∨ c = '-' := by simpa using sign
      · exact .plus (mem_digits.mp digits)
      · exact .minus (mem_digits.mp digits)
  · intro h
    cases h with
    | plain digits => exact .inl digits
    | @plus ds digits => exact .inr ⟨'+', ds, mem_digits.mpr digits, rfl, rfl⟩
    | @minus ds digits => exact .inr ⟨'-', ds, mem_digits.mpr digits, rfl, rfl⟩

/-- The pattern of an exponent is its language. -/
theorem mem_exponentPart : cs ∈ exponentPart ↔ Exponent cs := by
  rw [exponentPart, mem_oneOf_mul]
  constructor
  · rintro ⟨c, rest, signed, mark, rfl⟩
    obtain rfl | rfl : c = 'e' ∨ c = 'E' := by simpa using mark
    · exact .lower (mem_signedDigits.mp signed)
    · exact .upper (mem_signedDigits.mp signed)
  · intro h
    cases h with
    | @lower cs signed => exact ⟨'e', cs, mem_signedDigits.mpr signed, rfl, rfl⟩
    | @upper cs signed => exact ⟨'E', cs, mem_signedDigits.mpr signed, rfl, rfl⟩

/-- A whole number with a fraction and perhaps an exponent, or with an exponent alone. -/
theorem mem_floating :
    cs ∈ integerPart * fractionalPart * optionally exponentPart + integerPart * exponentPart
      ↔ Floating cs := by
  rw [Language.mem_add, mem_mul_optionally, mul_assoc]
  simp only [Language.mem_mul, mem_integerPart, mem_fractionalPart, mem_exponentPart]
  constructor
  · rintro ((⟨whole, hw, fraction, hf, rfl⟩ | ⟨whole, hw, _, ⟨fraction, hf, exponent, he, rfl⟩, rfl⟩)
      | ⟨whole, hw, exponent, he, rfl⟩)
    · exact .fraction hw hf
    · exact .both hw hf he
    · exact .exponent hw he
  · intro h
    cases h with
    | @fraction whole fraction hw hf => exact .inl (.inl ⟨whole, hw, fraction, hf, rfl⟩)
    | @exponent whole exponent hw he => exact .inr ⟨whole, hw, exponent, he, rfl⟩
    | @both whole fraction exponent hw hf he =>
      exact .inl (.inr ⟨whole, hw, _, ⟨fraction, hf, exponent, he, rfl⟩, rfl⟩)

/-! ## Strings -/

/-- A character of an inline string: any that is neither a backslash nor a quote and ends no line,
    or a backslash with what it escapes. -/
def stringCharacter : Texts :=
  oneOf (fun c => !(c == '\\' || c == '"' || c == '\n' || c == '\r'))
    + exactly ['\\'] * (exactly ['u'] * oneOf isHexDigit ^ 4 + oneOf isSimpleEscape)

/-- Four hexadecimal digits are four characters that are each one. -/
theorem mem_hexDigits :
    cs ∈ oneOf isHexDigit ^ 4 ↔ ∃ a b c d, cs = [a, b, c, d] ∧
      (isHexDigit a && isHexDigit b && isHexDigit c && isHexDigit d) = true := by
  have split : oneOf isHexDigit ^ 4
      = oneOf isHexDigit * (oneOf isHexDigit * (oneOf isHexDigit * oneOf isHexDigit)) := by
    rw [pow_succ', pow_succ', pow_two]
  simp only [split, mem_oneOf_mul, mem_oneOf, Bool.and_eq_true]
  constructor
  · rintro ⟨a, _, ⟨b, _, ⟨c, _, ⟨d, hd, rfl⟩, hc, rfl⟩, hb, rfl⟩, ha, rfl⟩
    exact ⟨a, b, c, d, rfl, ⟨⟨ha, hb⟩, hc⟩, hd⟩
  · rintro ⟨a, b, c, d, rfl, ⟨⟨ha, hb⟩, hc⟩, hd⟩
    exact ⟨a, _, ⟨b, _, ⟨c, _, ⟨d, hd, rfl⟩, hc, rfl⟩, hb, rfl⟩, ha, rfl⟩

/-- The three forms of a character of an inline string. -/
theorem mem_stringCharacter :
    cs ∈ stringCharacter ↔
      (∃ c, (c ≠ '"' ∧ (c == '\\' || c == '\n' || c == '\r') = false) ∧ cs = [c]) ∨
      (∃ a b c d, (isHexDigit a && isHexDigit b && isHexDigit c && isHexDigit d) = true ∧
        cs = ['\\', 'u', a, b, c, d]) ∨
      ∃ e, isSimpleEscape e = true ∧ cs = ['\\', e] := by
  rw [stringCharacter, mul_add, Language.mem_add, Language.mem_add, mem_oneOf]
  refine or_congr ?_ (or_congr ?_ ?_)
  · -- a character that stands for itself
    refine exists_congr fun c => and_congr_left fun _ => ?_
    simp only [Bool.not_eq_true', Bool.or_eq_false_iff, beq_eq_false_iff_ne]
    tauto
  · -- four digits behind a backslash and their mark
    simp only [mem_exactly_mul, mem_hexDigits]
    constructor
    · rintro ⟨_, ⟨_, ⟨a, b, c, d, rfl, hex⟩, rfl⟩, rfl⟩
      exact ⟨a, b, c, d, hex, rfl⟩
    · rintro ⟨a, b, c, d, hex, rfl⟩
      exact ⟨_, ⟨_, ⟨a, b, c, d, rfl, hex⟩, rfl⟩, rfl⟩
  · -- a letter behind a backslash
    simp only [mem_exactly_mul, mem_oneOf]
    constructor
    · rintro ⟨_, ⟨e, simple, rfl⟩, rfl⟩
      exact ⟨e, simple, rfl⟩
    · rintro ⟨e, simple, rfl⟩
      exact ⟨_, ⟨e, simple, rfl⟩, rfl⟩

/-- One more character in front of a body makes a body. -/
theorem inlineBody_cons {unit body : List Char} (h : unit ∈ stringCharacter)
    (others : InlineBody body) : InlineBody (unit ++ body) := by
  rcases mem_stringCharacter.mp h with
    ⟨c, ⟨noQuote, plain⟩, rfl⟩ | ⟨a, b, c, d, hex, rfl⟩ | ⟨e, simple, rfl⟩
  · exact .plain noQuote plain others
  · exact .unicode hex others
  · exact .escape simple others

/-- Characters of an inline string and a quote are what is left of one after its opening quote. -/
theorem mem_inlineBody : cs ∈ stringCharacter∗ * exactly ['"'] ↔ InlineBody cs := by
  constructor
  · rw [Language.mem_mul]
    rintro ⟨_, ⟨units, rfl, each⟩, _, rfl, rfl⟩
    -- the quote comes last, so the body grows at its front
    induction units with
    | nil => exact .close
    | cons unit units ih =>
      obtain ⟨first, others⟩ := List.forall_mem_cons.mp each
      have body : InlineBody (units.flatten ++ ['"']) := ih others
      rw [List.flatten_cons, List.append_assoc]
      exact inlineBody_cons first body
  · intro h
    have further : ∀ {unit body : List Char}, unit ∈ stringCharacter →
        body ∈ stringCharacter∗ * exactly ['"'] →
        unit ++ body ∈ stringCharacter∗ * exactly ['"'] := by
      intro unit body hunit hbody
      obtain ⟨units, hunits, quote, hquote, rfl⟩ := Language.mem_mul.mp hbody
      rw [← List.append_assoc]
      exact Language.append_mem_mul
        (mem_kstar_iff.mpr (.inr (Language.append_mem_mul hunit hunits))) hquote
    induction h with
    | close => exact Language.append_mem_mul (Language.nil_mem_kstar _) (mem_exactly.mpr rfl)
    | @unicode a b c d body hex _ ih =>
      exact further (mem_stringCharacter.mpr (.inr (.inl ⟨a, b, c, d, hex, rfl⟩))) ih
    | @escape e body simple _ ih =>
      exact further (mem_stringCharacter.mpr (.inr (.inr ⟨e, simple, rfl⟩))) ih
    | @plain c body noQuote plain _ ih =>
      exact further (mem_stringCharacter.mpr (.inl ⟨c, ⟨noQuote, plain⟩, rfl⟩)) ih

end Texts

/-! ## Classes -/

open Texts

/-- The texts of a class, as a regular expression.  Block strings have none: their texts are those
    that the scanner takes from end to end. -/
def LexemeClass.pattern : LexemeClass → Texts
  | .blank => repeatedly (oneOf fun c => c == ' ' || c == '\t')
  | .byteOrderMark => exactly ['\uFEFF']
  | .lineEnd => exactly ['\r', '\n'] + exactly ['\r'] + exactly ['\n']
  | .comment => exactly ['#'] * (oneOf fun c => c != '\n' && c != '\r')∗
  | .comma => exactly [',']
  | .mark p => exactly p.text.toList
  | .word => oneOf isNameStart * (oneOf isNamePart)∗
  | .float => integerPart * fractionalPart * optionally exponentPart + integerPart * exponentPart
  | .int => integerPart
  | .blockString => {cs | cs ≠ [] ∧ blockStringLength cs = cs.length}
  | .inlineString => exactly ['"'] * (stringCharacter∗ * exactly ['"'])

/-- A text is a block string if the scanner takes it from end to end. -/
theorem language_blockString_iff {cs : List Char} :
    LexemeClass.blockString.Language cs ↔ cs ≠ [] ∧ blockStringLength cs = cs.length := by
  constructor
  · -- a block string is measured in full
    rintro ⟨body, rfl, inside⟩
    refine ⟨List.cons_ne_nil _ _, ?_⟩
    have full : blockBodyLength body = some body.length := by
      rw [← inside.measure [], List.append_nil]
    rw [blockStringLength, full]
    simp only [List.length_cons]
    omega
  · -- and what is measured in full is what the scanner takes
    rintro ⟨some, full⟩
    have measured : 0 < LexemeClass.blockString.measure cs := by
      show 0 < blockStringLength cs
      rw [full]
      exact List.length_pos_iff.mpr some
    have language := LexemeClass.language_take measured
    have whole : cs.take (LexemeClass.blockString.measure cs) = cs := by
      show cs.take (blockStringLength cs) = cs
      rw [full, List.take_length]
    rwa [whole] at language

/-- The patterns describe the texts that belong to the classes. -/
theorem LexemeClass.mem_pattern_iff {k : LexemeClass} {cs : List Char} :
    cs ∈ k.pattern ↔ k.Language cs := by
  -- the classes differ in their patterns, and each has been gone through
  cases k with
  | blank => exact mem_repeatedly_oneOf
  | byteOrderMark => exact mem_exactly
  | lineEnd => exact or_assoc
  | comment =>
    refine mem_exactly_mul.trans (exists_congr fun text => ?_)
    rw [mem_kstar_oneOf]
    exact and_comm
  | comma => exact mem_exactly
  | mark p => exact mem_exactly
  | word =>
    refine mem_oneOf_mul.trans (exists_congr fun c => exists_congr fun rest => ?_)
    rw [mem_kstar_oneOf]
    constructor
    · exact fun ⟨parts, start, same⟩ => ⟨same, start, parts⟩
    · exact fun ⟨same, start, parts⟩ => ⟨parts, start, same⟩
  | float => exact mem_floating
  | int => exact mem_integerPart
  | blockString => exact language_blockString_iff.symm
  | inlineString =>
    refine mem_exactly_mul.trans (exists_congr fun body => ?_)
    rw [mem_inlineBody]
    exact and_comm

end GraphQL
