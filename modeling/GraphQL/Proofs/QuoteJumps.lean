/-
  Block strings, scanned by jumping from quote to quote.

  A block string can be scanned on its bytes without looking at most of them: find the next quote, see
  whether two more stand behind it, and if so look back one byte for the backslash that makes them an
  escape (`jumpScan`).  The language reads its body from left to right instead, unit by unit
  (`BlockBody`), and so does the scanner of the tokenizer.

  The two agree since a backslash always begins a unit, so the byte that is looked back at belongs to
  no unit that has been read already.  To see this one must know what stands in front of the place
  where the search goes on: it is always a quote (`jumpFrom_eq`).  That the search is made in bytes does
  no harm, as in UTF-8 no byte of another character is that of a quote or a backslash (`eq_of_ascii`).
-/
import GraphQL.Proofs.Placement

namespace GraphQL

/-! ## Bytes -/

/-- The bytes of a text in UTF-8. -/
def utf8Bytes (cs : List Char) : List UInt8 := cs.flatMap String.utf8EncodeChar

@[simp] theorem utf8Bytes_append (a b : List Char) :
    utf8Bytes (a ++ b) = utf8Bytes a ++ utf8Bytes b := List.flatMap_append

theorem utf8Bytes_toList (text : String) : utf8Bytes text.toList = text.toByteArray.data.toList := by
  rw [← String.utf8Encode_toList, List.utf8Encode, List.toList_data_toByteArray, utf8Bytes]

/-- A text has as many bytes as are counted over its characters. -/
@[simp] theorem length_utf8Bytes (cs : List Char) : (utf8Bytes cs).length = utf8Length cs := by
  induction cs with
  | nil => rfl
  | cons c cs ih =>
    have split : utf8Bytes (c :: cs) = String.utf8EncodeChar c ++ utf8Bytes cs := List.flatMap_cons
    rw [split, List.length_append, String.length_utf8EncodeChar, ih, utf8Length]

/-- Dropping the bytes of a text leaves the bytes of what follows it. -/
theorem drop_utf8Bytes (a b : List Char) :
    (utf8Bytes (a ++ b)).drop (utf8Length a) = utf8Bytes b := by
  rw [utf8Bytes_append, ← length_utf8Bytes a, List.drop_left]

/-- A byte below 128 is a character by itself. -/
theorem eq_of_ascii {c : Char} {b : UInt8} (mem : b ∈ String.utf8EncodeChar c)
    (ascii : b.toNat < 128) : String.utf8EncodeChar c = [b] ∧ c.toNat = b.toNat := by
  have value : c.toNat = c.val.toNat := rfl
  unfold String.utf8EncodeChar at mem ⊢
  simp only at mem ⊢
  split at mem
  · rename_i small
    obtain rfl := List.mem_singleton.mp mem
    rw [if_pos small, UInt8.toNat_ofNat']
    exact ⟨rfl, by omega⟩
  · -- each byte of a longer character is 128 or more
    exfalso
    split at mem
    · simp only [List.mem_cons, List.not_mem_nil, or_false] at mem
      rcases mem with rfl | rfl <;> rw [UInt8.toNat_ofNat'] at ascii <;> omega
    · split at mem
      · simp only [List.mem_cons, List.not_mem_nil, or_false] at mem
        rcases mem with rfl | rfl | rfl <;> rw [UInt8.toNat_ofNat'] at ascii <;> omega
      · simp only [List.mem_cons, List.not_mem_nil, or_false] at mem
        rcases mem with rfl | rfl | rfl | rfl <;> rw [UInt8.toNat_ofNat'] at ascii <;> omega

/-- The byte of a quote. -/
def quoteByte : UInt8 := 34

/-- The byte of a backslash. -/
def backslashByte : UInt8 := 92

theorem eq_quote {c : Char} (mem : quoteByte ∈ String.utf8EncodeChar c) : c = '"' :=
  Char.toNat_inj.mp (eq_of_ascii mem (by decide)).2

theorem eq_backslash {c : Char} (mem : backslashByte ∈ String.utf8EncodeChar c) : c = '\\' :=
  Char.toNat_inj.mp (eq_of_ascii mem (by decide)).2

/-! ## The scanner -/

/-- The bytes of the quotes around a block string. -/
def delimiter : List UInt8 := [quoteByte, quoteByte, quoteByte]

/-- What is found behind an offset is found within the bytes. -/
theorem lt_of_findIdx?_drop {bytes : List UInt8} {offset gap : Nat} {p : UInt8 → Bool}
    (h : (bytes.drop offset).findIdx? p = some gap) : offset + gap < bytes.length := by
  obtain ⟨bound, -⟩ := List.findIdx?_eq_some_iff_getElem.mp h
  rw [List.length_drop] at bound
  omega

/-- Looks from an offset on for the quotes that close a block string, jumping from quote to quote.
    Three quotes with a backslash in front of them are jumped over. -/
def jumpFrom (bytes : List UInt8) (offset : Nat) : Option Nat :=
  match _found : (bytes.drop offset).findIdx? (· == quoteByte) with
  | none => none
  | some gap =>
    if delimiter.isPrefixOf (bytes.drop (offset + gap)) then
      if 0 < offset + gap && bytes[offset + gap - 1]? == some backslashByte then
        jumpFrom bytes (offset + gap + 3)
      else some (offset + gap + 3)
    else jumpFrom bytes (offset + gap + 1)
termination_by bytes.length - offset
decreasing_by
  all_goals
    have bound := lt_of_findIdx?_drop _found
    omega

/-- How many bytes the block string at the front of some bytes takes, if one stands there. -/
def jumpScan (bytes : List UInt8) : Option Nat :=
  if delimiter.isPrefixOf bytes then jumpFrom bytes 3 else none

section Steps

variable {bytes : List UInt8} {offset gap : Nat}

/-- Without a further quote no block string is closed. -/
theorem jumpFrom_of_none (h : (bytes.drop offset).findIdx? (· == quoteByte) = none) :
    jumpFrom bytes offset = none := by
  rw [jumpFrom]
  split
  · rfl
  · rename_i found
    cases found.symm.trans h

/-- One jump: at the next quote either the string is closed, or the jumping goes on behind an
    escaped closing, or behind that one quote. -/
theorem jumpFrom_of_some (h : (bytes.drop offset).findIdx? (· == quoteByte) = some gap) :
    jumpFrom bytes offset =
      if delimiter.isPrefixOf (bytes.drop (offset + gap)) then
        if 0 < offset + gap && bytes[offset + gap - 1]? == some backslashByte then
          jumpFrom bytes (offset + gap + 3)
        else some (offset + gap + 3)
      else jumpFrom bytes (offset + gap + 1) := by
  rw [jumpFrom]
  split
  · rename_i found
    cases found.symm.trans h
  · rename_i found
    cases found.symm.trans h
    rfl

end Steps

/-! ## What the scanner sees of the characters -/

/-- No byte of a text without quotes is that of a quote. -/
theorem findIdx?_of_no_quote {cs : List Char} (noQuote : '"' ∉ cs) :
    (utf8Bytes cs).findIdx? (· == quoteByte) = none := by
  refine List.findIdx?_eq_none_iff.mpr fun b hb => beq_eq_false_iff_ne.mpr ?_
  rintro rfl
  obtain ⟨c, hc, mem⟩ := List.mem_flatMap.mp hb
  exact noQuote (eq_quote mem ▸ hc)

/-- The first byte of a quote is where the first quote is. -/
theorem findIdx?_of_quote {plain : List Char} (noQuote : '"' ∉ plain) (tail : List Char) :
    (utf8Bytes (plain ++ '"' :: tail)).findIdx? (· == quoteByte) = some (utf8Length plain) := by
  have here : utf8Bytes ('"' :: tail) = quoteByte :: utf8Bytes tail := rfl
  rw [utf8Bytes_append, List.findIdx?_append, findIdx?_of_no_quote noQuote, here, List.findIdx?_cons,
    if_pos (beq_self_eq_true _), Option.none_or, Option.map_some, length_utf8Bytes, Nat.zero_add]

/-- Bytes of quotes stand at the front where quotes do. -/
theorem isPrefixOf_quotes (n : Nat) (cs : List Char) :
    (List.replicate n quoteByte).isPrefixOf (utf8Bytes cs)
      = (List.replicate n '"').isPrefixOf cs := by
  induction n generalizing cs with
  | zero => simp
  | succ n ih =>
    cases cs with
    | nil => rfl
    | cons c cs =>
      have split : utf8Bytes (c :: cs) = String.utf8EncodeChar c ++ utf8Bytes cs := List.flatMap_cons
      rw [split, List.replicate_succ, List.replicate_succ, List.isPrefixOf]
      by_cases quote : c = '"'
      · -- a quote is one byte
        subst quote
        show (quoteByte == quoteByte && (List.replicate n quoteByte).isPrefixOf (utf8Bytes cs)) = _
        rw [ih]
        rfl
      · -- the bytes of any other character are no quotes
        have nonempty : String.utf8EncodeChar c ≠ [] := String.utf8EncodeChar_ne_nil
        obtain ⟨b, bs, encoded⟩ := List.exists_cons_of_ne_nil nonempty
        have other : quoteByte ≠ b := by
          rintro rfl
          exact quote (eq_quote (encoded ▸ List.mem_cons_self))
        rw [encoded, List.cons_append, List.isPrefixOf, beq_eq_false_iff_ne.mpr other,
          beq_eq_false_iff_ne.mpr (Ne.symm quote), Bool.false_and, Bool.false_and]

theorem isPrefixOf_delimiter (cs : List Char) :
    delimiter.isPrefixOf (utf8Bytes cs) = ['"', '"', '"'].isPrefixOf cs := isPrefixOf_quotes 3 cs

/-- The byte in front of a place is a backslash if the character in front of it is one. -/
theorem looks_back {before : List Char} {c : Char} (last : before.getLast? = some c)
    (after : List Char) :
    (0 < utf8Length before
        && (utf8Bytes (before ++ after))[utf8Length before - 1]? == some backslashByte) = true
      ↔ c = '\\' := by
  obtain ⟨init, rfl⟩ := List.getLast?_eq_some_iff.mp last
  have length : utf8Length (init ++ [c]) = utf8Length init + c.utf8Size := by
    rw [utf8Length_append, utf8Length, utf8Length, Nat.add_zero]
  have wide := c.utf8Size_pos
  -- the byte in front is the last one of the character
  have byte : (utf8Bytes (init ++ [c] ++ after))[utf8Length (init ++ [c]) - 1]?
      = (String.utf8EncodeChar c)[c.utf8Size - 1]? := by
    have split : utf8Bytes (init ++ [c] ++ after)
        = utf8Bytes init ++ (String.utf8EncodeChar c ++ utf8Bytes after) := by
      simp [utf8Bytes]
    have place : utf8Length (init ++ [c]) - 1 = (utf8Bytes init).length + (c.utf8Size - 1) := by
      rw [length, length_utf8Bytes]
      omega
    rw [split, place, List.getElem?_append_right (Nat.le_add_right ..), Nat.add_sub_cancel_left,
      List.getElem?_append_left (by rw [String.length_utf8EncodeChar]; omega)]
  rw [byte, Bool.and_eq_true, decide_eq_true_iff, beq_iff_eq]
  constructor
  · rintro ⟨-, backslash⟩
    exact eq_backslash (List.mem_of_getElem? backslash)
  · rintro rfl
    exact ⟨by omega, rfl⟩

/-! ## What is read unit by unit -/

/-- Two offsets that are added to a length one after the other add up. -/
theorem map_add_map_add (length : Option Nat) (m n : Nat) :
    (length.map (· + m)).map (· + n) = length.map (· + (m + n)) := by
  rw [Option.map_map]
  exact congrArg (length.map ·) (funext fun k => Nat.add_assoc k m n)

/-- Characters that are no quotes are units, if the last of them does not escape the quotes behind
    them. -/
theorem blockBodyLength_append {plain : List Char} (noQuote : '"' ∉ plain) {rest : List Char}
    (noEscape : plain.getLast? = some '\\' → ¬ ['"', '"', '"'] <+: rest) :
    blockBodyLength (plain ++ rest) = (blockBodyLength rest).map (· + plain.length) := by
  induction plain with
  | nil => simp
  | cons c plain ih =>
    obtain ⟨noFirst, noOther⟩ := not_or.mp (mt List.mem_cons.mpr noQuote)
    -- no quote in front, so neither the closing quotes nor their escape begin before the rest
    have close : ¬ ['"', '"', '"'] <+: c :: (plain ++ rest) := by
      rintro ⟨after, same⟩
      exact noFirst (List.cons.inj same).1
    have escape : ¬ ['\\', '"', '"', '"'] <+: c :: (plain ++ rest) := by
      rintro ⟨after, same⟩
      obtain ⟨rfl, behind⟩ := List.cons.inj same
      -- a backslash at the very end would escape what follows
      cases plain with
      | nil => exact noEscape rfl ⟨after, behind⟩
      | cons d plain => exact noOther ((List.cons.inj behind).1 ▸ List.mem_cons_self)
    have others : blockBodyLength (plain ++ rest) = (blockBodyLength rest).map (· + plain.length) := by
      refine ih noOther fun last => noEscape ?_
      rw [List.getLast?_cons, last]
      rfl
    rw [List.cons_append, blockBodyLength_unit close escape, others, map_add_map_add]
    rfl

/-- Without a quote a body is not closed. -/
theorem blockBodyLength_of_no_quote {cs : List Char} (noQuote : '"' ∉ cs) :
    blockBodyLength cs = none := by
  cases found : blockBodyLength cs with
  | none => rfl
  | some n =>
    obtain ⟨c, last, quote⟩ := (blockBody_take found).ends
    rw [eq_of_beq quote] at last
    exact absurd (List.mem_of_mem_take (List.mem_of_getLast? last)) noQuote

/-- The first quote is a unit if no two more stand behind it. -/
theorem blockBodyLength_lone {plain tail : List Char} (noQuote : '"' ∉ plain)
    (lone : ¬ ['"', '"', '"'] <+: '"' :: tail) :
    blockBodyLength (plain ++ '"' :: tail)
      = (blockBodyLength tail).map (· + (plain ++ ['"']).length) := by
  have noEscape : ¬ ['\\', '"', '"', '"'] <+: '"' :: tail := by
    rintro ⟨after, same⟩
    cases same
  rw [blockBodyLength_append noQuote fun _ => lone, blockBodyLength_unit lone noEscape,
    map_add_map_add, List.length_append, List.length_singleton, Nat.add_comm 1]

/-- The first three quotes are part of a unit if a backslash stands in front of them. -/
theorem blockBodyLength_escaped {plain more : List Char} (noQuote : '"' ∉ plain)
    (escaped : plain.getLast? = some '\\') :
    blockBodyLength (plain ++ (['"', '"', '"'] ++ more))
      = (blockBodyLength more).map (· + (plain ++ ['"', '"', '"']).length) := by
  obtain ⟨init, rfl⟩ := List.getLast?_eq_some_iff.mp escaped
  have noInit : '"' ∉ init := fun h => noQuote (List.mem_append_left _ h)
  have noClose : ¬ ['"', '"', '"'] <+: '\\' :: '"' :: '"' :: '"' :: more := by
    rintro ⟨after, same⟩
    cases same
  have unit : blockBodyLength ('\\' :: '"' :: '"' :: '"' :: more)
      = (blockBodyLength more).map (· + 4) := by rw [blockBodyLength]
  rw [List.append_assoc]
  refine (blockBodyLength_append noInit fun _ => noClose).trans ?_
  have length : (init ++ ['\\'] ++ ['"', '"', '"']).length = 4 + init.length := by
    simp only [List.length_append, List.length_cons, List.length_nil]
    omega
  rw [unit, map_add_map_add, length]

/-- The first three quotes close the body otherwise. -/
theorem blockBodyLength_closed {plain more : List Char} (noQuote : '"' ∉ plain)
    (unescaped : plain.getLast? ≠ some '\\') :
    blockBodyLength (plain ++ (['"', '"', '"'] ++ more))
      = some (plain ++ ['"', '"', '"']).length := by
  have close : blockBodyLength (['"', '"', '"'] ++ more) = some 3 := BlockBody.close.measure more
  rw [blockBodyLength_append noQuote fun escaped => absurd escaped unescaped, close,
    List.length_append, Nat.add_comm]
  rfl

/-! ## The two ways agree -/

/-- What the scanner does at the first quote behind another one. -/
theorem jumpFrom_quote {front plain : List Char} (quote : front.getLast? = some '"')
    (noQuote : '"' ∉ plain) (tail : List Char) :
    jumpFrom (utf8Bytes (front ++ (plain ++ '"' :: tail))) (utf8Length front) =
      if ['"', '"', '"'].isPrefixOf ('"' :: tail) then
        if plain.getLast? = some '\\' then
          jumpFrom (utf8Bytes (front ++ (plain ++ '"' :: tail))) (utf8Length (front ++ plain) + 3)
        else some (utf8Length (front ++ plain) + 3)
      else jumpFrom (utf8Bytes (front ++ (plain ++ '"' :: tail)))
        (utf8Length (front ++ plain) + 1) := by
  have found : ((utf8Bytes (front ++ (plain ++ '"' :: tail))).drop (utf8Length front)).findIdx?
      (· == quoteByte) = some (utf8Length plain) := by
    rw [drop_utf8Bytes, findIdx?_of_quote noQuote]
  have opens : delimiter.isPrefixOf ((utf8Bytes (front ++ (plain ++ '"' :: tail))).drop
      (utf8Length (front ++ plain))) = ['"', '"', '"'].isPrefixOf ('"' :: tail) := by
    rw [← List.append_assoc, drop_utf8Bytes, isPrefixOf_delimiter]
  -- the byte looked back at is that of the last character without quotes, or of a quote
  have back : (0 < utf8Length (front ++ plain)
        && (utf8Bytes (front ++ (plain ++ '"' :: tail)))[utf8Length (front ++ plain) - 1]?
          == some backslashByte) = true ↔ plain.getLast? = some '\\' := by
    rw [← List.append_assoc]
    cases last : plain.getLast? with
    | none =>
      obtain rfl := List.getLast?_eq_none_iff.mp last
      rw [List.append_nil, looks_back quote]
      decide
    | some c =>
      have lastOfBoth : (front ++ plain).getLast? = some c := by
        rw [List.getLast?_append, last, Option.some_or]
      rw [looks_back lastOfBoth, Option.some_inj]
  rw [jumpFrom_of_some found, ← utf8Length_append, opens]
  simp only [back]

/-- Jumping over quotes is right if what is in front of them and they are units of the body, or
    several, and what is found behind them is right. -/
theorem jumpFrom_over (quotes : List Char) {front plain more : List Char}
    (units : blockBodyLength (plain ++ (quotes ++ more))
      = (blockBodyLength more).map (· + (plain ++ quotes).length))
    (further : jumpFrom (utf8Bytes ((front ++ plain ++ quotes) ++ more))
        (utf8Length (front ++ plain ++ quotes))
      = (blockBodyLength more).map fun n => utf8Length ((front ++ plain ++ quotes) ++ more.take n)) :
    jumpFrom (utf8Bytes (front ++ (plain ++ (quotes ++ more))))
        (utf8Length (front ++ plain) + utf8Length quotes)
      = (blockBodyLength (plain ++ (quotes ++ more))).map fun n =>
        utf8Length (front ++ (plain ++ (quotes ++ more)).take n) := by
  have take : ∀ n, (plain ++ (quotes ++ more)).take (n + (plain ++ quotes).length)
      = plain ++ quotes ++ more.take n := fun n => by
    rw [← List.append_assoc, Nat.add_comm, List.take_length_add_append]
  have same : front ++ (plain ++ (quotes ++ more)) = (front ++ plain ++ quotes) ++ more := by
    simp only [List.append_assoc]
  rw [same, ← utf8Length_append, further, units, Option.map_map]
  congr 1
  funext n
  rw [Function.comp_apply, take]
  simp only [List.append_assoc]

/-- Jumping on from behind a quote finds what reading on unit by unit finds.  Induction on the
    length of what is left, case by case for the first quote there: no two more stand behind it, or
    they do and the three are escaped, or they close the string. -/
theorem jumpFrom_eq {front rest : List Char} (quote : front.getLast? = some '"') :
    jumpFrom (utf8Bytes (front ++ rest)) (utf8Length front)
      = (blockBodyLength rest).map fun n => utf8Length (front ++ rest.take n) := by
  induction length : rest.length using Nat.strong_induction_on generalizing front rest with
  | h size ih =>
  by_cases quoted : '"' ∈ rest
  · obtain ⟨plain, tail, rfl, noQuote⟩ := List.eq_append_cons_of_mem quoted
    rw [jumpFrom_quote quote noQuote]
    by_cases triple : ['"', '"', '"'] <+: '"' :: tail
    · rw [if_pos (List.isPrefixOf_iff_prefix.mpr triple)]
      obtain ⟨more, same⟩ := triple
      rw [← same] at length ⊢
      by_cases escaped : plain.getLast? = some '\\'
      · -- the backslash and the three quotes are one unit, and the last of them is in front now
        rw [if_pos escaped]
        refine jumpFrom_over ['"', '"', '"'] (blockBodyLength_escaped noQuote escaped)
          (ih more.length ?_ ?_ rfl)
        · simp only [List.length_append, List.length_cons] at length
          omega
        · rw [List.getLast?_append]
          rfl
      · -- the three quotes close the body
        have take : (plain ++ (['"', '"', '"'] ++ more)).take (plain ++ ['"', '"', '"']).length
            = plain ++ ['"', '"', '"'] := by
          rw [← List.append_assoc, List.take_left]
        rw [if_neg escaped, blockBodyLength_closed noQuote escaped, Option.map_some, take,
          ← List.append_assoc, utf8Length_append (front ++ plain)]
        rfl
    · -- the quote is a unit, and it is in front now
      rw [if_neg (mt List.isPrefixOf_iff_prefix.mp triple)]
      refine jumpFrom_over ['"'] (blockBodyLength_lone noQuote triple)
        (ih tail.length ?_ List.getLast?_concat rfl)
      simp only [List.length_append, List.length_cons] at length
      omega
  · rw [jumpFrom_of_none (by rw [drop_utf8Bytes, findIdx?_of_no_quote quoted]),
      blockBodyLength_of_no_quote quoted]
    rfl

/-- The scanner that jumps takes what the scanner of the tokenizer takes. -/
theorem jumpScan_eq (cs : List Char) :
    jumpScan (utf8Bytes cs) = if 0 < blockStringLength cs
      then some (utf8Length (cs.take (blockStringLength cs))) else none := by
  rw [jumpScan, isPrefixOf_delimiter]
  -- the string is opened, or no quotes are in front
  by_cases opened : ['"', '"', '"'] <+: cs
  · rw [if_pos (List.isPrefixOf_iff_prefix.mpr opened)]
    obtain ⟨rest, rfl⟩ := opened
    show jumpFrom (utf8Bytes (['"', '"', '"'] ++ rest)) (utf8Length ['"', '"', '"']) = _
    rw [jumpFrom_eq rfl]
    -- its body is closed, or the text ends before
    cases found : blockBodyLength rest with
    | none =>
      have zero : blockStringLength (['"', '"', '"'] ++ rest) = 0 := by
        show blockStringLength ('"' :: '"' :: '"' :: rest) = 0
        rw [blockStringLength, found]
      rw [zero]
      rfl
    | some n =>
      have length : blockStringLength (['"', '"', '"'] ++ rest) = ['"', '"', '"'].length + n := by
        show blockStringLength ('"' :: '"' :: '"' :: rest) = 3 + n
        rw [blockStringLength, found]
      rw [length, if_pos (Nat.add_pos_left (by decide) n), List.take_length_add_append]
      rfl
  · have zero : blockStringLength cs = 0 := by
      refine blockStringLength.eq_2 cs fun rest same => opened ?_
      rw [same]
      exact List.prefix_append ['"', '"', '"'] rest
    rw [if_neg (mt List.isPrefixOf_iff_prefix.mp opened), zero]
    rfl

/-- It takes the bytes of three quotes and of a body, read unit by unit. -/
theorem jumpScan_eq_some_iff {cs : List Char} {n : Nat} :
    jumpScan (utf8Bytes cs) = some n
      ↔ ∃ body after, cs = '"' :: '"' :: '"' :: (body ++ after) ∧ BlockBody body ∧
        n = utf8Length ('"' :: '"' :: '"' :: body) := by
  rw [jumpScan_eq]
  constructor
  · intro taken
    -- what is jumped over is what the tokenizer measures
    split at taken
    · rename_i positive
      obtain ⟨body, text, units⟩ := blockString_take positive
      rw [text] at taken
      refine ⟨body, cs.drop (blockStringLength cs), ?_, units, (Option.some.inj taken).symm⟩
      have whole := List.take_append_drop (blockStringLength cs) cs
      rw [text] at whole
      exact whole.symm
    · cases taken
  · rintro ⟨body, after, rfl, units, rfl⟩
    have length : blockStringLength ('"' :: '"' :: '"' :: (body ++ after)) = 3 + body.length := by
      rw [blockStringLength, units.measure after]
    rw [length, if_pos (by omega)]
    show some (utf8Length ((['"', '"', '"'] ++ (body ++ after)).take
      (['"', '"', '"'].length + body.length))) = _
    rw [List.take_length_add_append, List.take_left]
    rfl

end GraphQL
