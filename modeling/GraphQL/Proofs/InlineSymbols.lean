/-
  The symbols of inline strings, and the texts that they stand for.

  An inline string is written in symbols: characters that stand for themselves, letters behind a
  backslash, and UTF-16 units in hexadecimal (`Quoted.Symbol`).  A row of symbols stands for a text,
  character by character (`Spells`); one symbol stands for a character, or two do, if it has two units.
  Some rows stand for no text, for a unit may be a surrogate, which is half a character.

  Whether a half lacks the other one is told from its neighbours (`Lone`, `Unpaired`), while a row is
  read from the left and each surrogate is used up.  The two agree since a whole character in front of
  a row neither supplies a half that the row lacks nor takes one away, not even if it is made of
  surrogates itself (`Stands.unpaired_iff`).  So a row is gone through character by character, up to its
  end or to a half that lacks the other (`exists_front`).
-/
import GraphQL.Literal.Quoted
import Mathlib.Data.Nat.Digits.Lemmas

namespace GraphQL

namespace Quoted

/-! ## Symbols -/

/-- The characters that cannot stand for themselves. -/
def marks : List Char := ['"', '\\', '\n', '\r']

/-- The letters that may stand behind a backslash, each with the character that it stands for. -/
def letters : List (Char × Char) :=
  [('"', '"'), ('\\', '\\'), ('/', '/'), ('b', '\x08'), ('f', '\x0c'), ('n', '\n'), ('r', '\r'),
   ('t', '\t')]

/-- A symbol of an inline string: a character that stands for itself, a letter behind a backslash,
    or the four digits of a UTF-16 unit behind a backslash and `u`. -/
inductive Symbol where
  | plain (c : Char) (noMark : c ∉ marks)
  | letter (e c : Char) (listed : (e, c) ∈ letters)
  | unit (digits : List Char) (four : digits.length = 4)
      (hex : ∀ c ∈ digits, isHexDigit c = true)

/-- The characters of a symbol. -/
def Symbol.written : Symbol → List Char
  | .plain c _ => [c]
  | .letter e _ _ => ['\\', e]
  | .unit digits _ _ => '\\' :: 'u' :: digits

/-- The characters of a row of symbols. -/
def written (symbols : List Symbol) : List Char := symbols.flatMap Symbol.written

/-- The value of a hexadecimal digit, in either case. -/
def digitValue (c : Char) : Nat := "0123456789abcdef".toList.idxOf c.toLower

/-- The number that some hexadecimal digits write, the highest first. -/
def unitValue (digits : List Char) : Nat := Nat.ofDigits 16 (digits.map digitValue).reverse

/-- The unit that a symbol gives, if it gives one. -/
def Symbol.value? : Symbol → Option Nat
  | .unit digits _ _ => some (unitValue digits)
  | _ => none

/-! ## Characters -/

/-- The UTF-16 units of a character: its number, or two surrogates beyond the basic plane. -/
def utf16 (c : Char) : List Nat :=
  if c.toNat < 0x10000 then [c.toNat]
  else [0xD800 + (c.toNat - 0x10000) / 0x400, 0xDC00 + (c.toNat - 0x10000) % 0x400]

/-- Some symbols stand for one character together. -/
inductive Stands : List Symbol → Char → Prop where
  | plain {c : Char} (noMark : c ∉ marks) : Stands [.plain c noMark] c
  | letter {e c : Char} (listed : (e, c) ∈ letters) : Stands [.letter e c listed] c
  | units {front : List Symbol} {c : Char}
      (same : front.map Symbol.value? = (utf16 c).map some) : Stands front c

/-- A row of symbols stands for a text, character by character. -/
inductive Spells : List Symbol → List Char → Prop where
  | nil : Spells [] []
  | cons {front symbols : List Symbol} {c : Char} {text : List Char} (stands : Stands front c)
      (others : Spells symbols text) : Spells (front ++ symbols) (c :: text)

/-- A symbol gives the first half of a character: a high surrogate. -/
def Symbol.IsHigh (p : Symbol) : Prop := ∃ n, p.value? = some n ∧ 0xD800 ≤ n ∧ n < 0xDC00

/-- A symbol gives the second half of a character: a low surrogate. -/
def Symbol.IsLow (p : Symbol) : Prop := ∃ n, p.value? = some n ∧ 0xDC00 ≤ n ∧ n < 0xE000

/-- A symbol between others is half a character and has not the other half beside it. -/
def Lone (before : List Symbol) (p : Symbol) (after : List Symbol) : Prop :=
  (p.IsHigh ∧ ∀ q ∈ after.head?, ¬ q.IsLow) ∨ (p.IsLow ∧ ∀ q ∈ before.getLast?, ¬ q.IsHigh)

/-- Some symbol of a row is half a character and has not the other half beside it. -/
def Unpaired (symbols : List Symbol) : Prop :=
  ∃ before p after, symbols = before ++ p :: after ∧ Lone before p after

/-! ## Letters and digits -/

/-- The decoder looks letters up in the list. -/
theorem escaped?_eq_some_iff {e c : Char} : escaped? e = some c ↔ (e, c) ∈ letters := by
  constructor
  · intro h
    unfold escaped? at h
    split at h <;> first | (cases h; decide) | cases h
  · intro h
    simp only [letters, List.mem_cons, List.not_mem_nil, or_false, Prod.mk.injEq] at h
    rcases h with ⟨rfl, rfl⟩ | ⟨rfl, rfl⟩ | ⟨rfl, rfl⟩ | ⟨rfl, rfl⟩ | ⟨rfl, rfl⟩ | ⟨rfl, rfl⟩ |
      ⟨rfl, rfl⟩ | ⟨rfl, rfl⟩ <;> rfl

/-- The tokenizer takes the letters of the same list for escapes. -/
theorem isSimpleEscape_iff {e : Char} : isSimpleEscape e = true ↔ ∃ c, (e, c) ∈ letters := by
  have listed : isSimpleEscape e = true ↔ e ∈ letters.map Prod.fst := by
    simp only [isSimpleEscape, letters, Bool.or_eq_true, beq_iff_eq, List.map_cons, List.map_nil,
      List.mem_cons, List.not_mem_nil, or_false]
    tauto
  rw [listed, List.mem_map]
  constructor
  · rintro ⟨⟨e, c⟩, h, rfl⟩
    exact ⟨c, h⟩
  · rintro ⟨c, h⟩
    exact ⟨(e, c), h, rfl⟩

/-- A character that stands for itself is no backslash. -/
theorem ne_backslash {c : Char} (noMark : c ∉ marks) : c ≠ '\\' := by
  rintro rfl
  exact noMark (by decide)

/-- No letter is taken for the mark of a unit. -/
theorem ne_of_listed {e c : Char} (listed : (e, c) ∈ letters) : e ≠ 'u' := by
  rintro rfl
  cases escaped?_eq_some_iff.mpr listed

/-- A hexadecimal digit is one of twenty-two characters. -/
theorem mem_of_isHexDigit {c : Char} (h : isHexDigit c = true) :
    c ∈ "0123456789abcdefABCDEF".toList := by
  have bounds : (48 ≤ c.toNat ∧ c.toNat ≤ 57) ∨ (97 ≤ c.toNat ∧ c.toNat ≤ 102)
      ∨ (65 ≤ c.toNat ∧ c.toNat ≤ 70) := by
    simpa [isHexDigit, isDigit, Char.le_def, UInt32.le_iff_toNat_le, or_assoc] using h
  rw [← Char.ofNat_toNat c]
  generalize c.toNat = n at bounds
  rcases bounds with ⟨_, _⟩ | ⟨_, _⟩ | ⟨_, _⟩ <;> interval_cases n <;> decide

/-- The decoder reads a hexadecimal digit as what it counts. -/
theorem hexValue_eq {c : Char} (h : isHexDigit c = true) : hexValue c = digitValue c := by
  have all : ("0123456789abcdefABCDEF".toList.all fun c => hexValue c == digitValue c) = true := by
    decide
  exact eq_of_beq (List.all_eq_true.mp all c (mem_of_isHexDigit h))

/-- A hexadecimal digit counts less than sixteen. -/
theorem digitValue_lt {c : Char} (h : isHexDigit c = true) : digitValue c < 16 := by
  have all : ("0123456789abcdefABCDEF".toList.all fun c => digitValue c < 16) = true := by decide
  exact of_decide_eq_true (List.all_eq_true.mp all c (mem_of_isHexDigit h))

/-- The decoder adds digits up as it comes upon them. -/
theorem hexNumber_eq {digits : List Char} (hex : ∀ c ∈ digits, isHexDigit c = true) :
    hexNumber digits = unitValue digits := by
  have values : digits.map digitValue = digits.map hexValue :=
    List.map_congr_left fun c hc => (hexValue_eq (hex c hc)).symm
  rw [unitValue, values, Nat.ofDigits_eq_foldr, List.foldr_reverse, List.foldl_map, hexNumber]
  refine congrArg (List.foldl · 0 digits) (funext fun n => funext fun c => ?_)
  exact Nat.add_comm ..

/-- Four hexadecimal digits give a unit of sixteen bits. -/
theorem Symbol.value_lt {p : Symbol} {n : Nat} (unit : p.value? = some n) : n < 0x10000 := by
  cases p with
  | plain | letter => cases unit
  | unit digits four hex =>
    cases unit
    have below : ∀ n ∈ (digits.map digitValue).reverse, n < 16 := by
      intro n hn
      obtain ⟨c, hc, rfl⟩ := List.mem_map.mp (List.mem_reverse.mp hn)
      exact digitValue_lt (hex c hc)
    have bound := Nat.ofDigits_lt_base_pow_length (by decide : 1 < 16) below
    rwa [List.length_reverse, List.length_map, four] at bound

/-! ## One row for what is written -/

theorem written_cons (p : Symbol) (symbols : List Symbol) :
    written (p :: symbols) = p.written ++ written symbols := rfl

theorem written_append (front symbols : List Symbol) :
    written (front ++ symbols) = written front ++ written symbols := List.flatMap_append ..

theorem Symbol.written_ne_nil (p : Symbol) : p.written ≠ [] := by
  cases p <;> exact List.cons_ne_nil _ _

/-- The characters in front tell the symbol that they are of. -/
theorem Symbol.eq_of_append {p q : Symbol} {cs ds : List Char}
    (h : p.written ++ cs = q.written ++ ds) : p = q ∧ cs = ds := by
  -- the first character tells a plain one from a backslash, and the second a letter from a unit
  cases p with
  | plain c noMark =>
    cases q with
    | plain d _ =>
      obtain ⟨rfl, rfl⟩ := List.cons.inj h
      exact ⟨rfl, rfl⟩
    | letter | unit => exact absurd (List.cons.inj h).1 (ne_backslash noMark)
  | letter e c listed =>
    cases q with
    | plain d noMark => exact absurd (List.cons.inj h).1.symm (ne_backslash noMark)
    | letter e' d listed' =>
      obtain ⟨-, h⟩ := List.cons.inj h
      obtain ⟨rfl, rfl⟩ := List.cons.inj h
      have found := escaped?_eq_some_iff.mpr listed
      obtain rfl := Option.some.inj (found.symm.trans (escaped?_eq_some_iff.mpr listed'))
      exact ⟨rfl, rfl⟩
    | unit =>
      obtain ⟨-, h⟩ := List.cons.inj h
      exact absurd (List.cons.inj h).1 (ne_of_listed listed)
  | unit digits four hex =>
    cases q with
    | plain d noMark => exact absurd (List.cons.inj h).1.symm (ne_backslash noMark)
    | letter e d listed =>
      obtain ⟨-, h⟩ := List.cons.inj h
      exact absurd (List.cons.inj h).1.symm (ne_of_listed listed)
    | unit digits' four' hex' =>
      -- units are of one length, so they end at the same place
      obtain ⟨-, h⟩ := List.cons.inj h
      obtain ⟨-, h⟩ := List.cons.inj h
      obtain ⟨rfl, rfl⟩ := List.append_inj h (four.trans four'.symm)
      exact ⟨rfl, rfl⟩

/-- No two rows of symbols are written alike. -/
theorem written_injective : Function.Injective written := by
  intro symbols others h
  induction symbols generalizing others with
  | nil =>
    cases others with
    | nil => rfl
    | cons q others => exact absurd (List.append_eq_nil_iff.mp h.symm).1 q.written_ne_nil
  | cons p symbols ih =>
    cases others with
    | nil => exact absurd (List.append_eq_nil_iff.mp h).1 p.written_ne_nil
    | cons q others =>
      obtain ⟨rfl, rest⟩ := Symbol.eq_of_append h
      rw [ih rest]

/-- Only a unit is written with a backslash and `u`. -/
theorem written_ne_unit {symbols : List Symbol} (noUnit : symbols.head?.bind Symbol.value? = none)
    (cs : List Char) : written symbols ≠ '\\' :: 'u' :: cs := by
  intro same
  cases symbols with
  | nil => cases same
  | cons q others =>
    cases q with
    | plain c noMark => exact ne_backslash noMark (List.cons.inj same).1
    | letter e c listed =>
      obtain ⟨-, same⟩ := List.cons.inj same
      exact ne_of_listed listed (List.cons.inj same).1
    | unit => cases noUnit

/-! ## Halves of characters -/

section Halves

variable {p high low : Symbol} {n m : Nat} {c : Char} {front : List Symbol}

/-- The decoder's test for a first half is the one that the symbols are sorted by. -/
theorem Symbol.isHigh_iff (unit : p.value? = some n) : p.IsHigh ↔ isHighSurrogate n = true := by
  simp only [Symbol.IsHigh, unit, Option.some.injEq, exists_eq_left', isHighSurrogate,
    Bool.and_eq_true, decide_eq_true_eq]

/-- And so is its test for a second half. -/
theorem Symbol.isLow_iff (unit : p.value? = some n) : p.IsLow ↔ isLowSurrogate n = true := by
  simp only [Symbol.IsLow, unit, Option.some.injEq, exists_eq_left', isLowSurrogate,
    Bool.and_eq_true, decide_eq_true_eq]

/-- A second half of a pair is no first half. -/
theorem Symbol.IsLow.not_isHigh (isLow : p.IsLow) : ¬ p.IsHigh := by
  obtain ⟨n, hn, below, -⟩ := isLow
  rintro ⟨m, hm, -, above⟩
  obtain rfl := Option.some.inj (hn.symm.trans hm)
  omega

/-- A valid number is the number of its character. -/
theorem toNat_ofNat (valid : n.isValidChar) : (Char.ofNat n).toNat = n := by
  rw [Char.ofNat, dif_pos valid]
  rfl

/-- The numbers of surrogates are left out where characters are numbered. -/
theorem toNat_valid (c : Char) : c.toNat < 0xD800 ∨ (0xDFFF < c.toNat ∧ c.toNat < 0x110000) :=
  c.valid

/-- A unit that is no half is a character. -/
theorem stands_single (unit : p.value? = some n) (noHigh : ¬ p.IsHigh) (noLow : ¬ p.IsLow) :
    Stands [p] (Char.ofNat n) := by
  have bound := p.value_lt unit
  have valid : n.isValidChar := by
    simp only [Symbol.IsHigh, Symbol.IsLow, unit, Option.some.injEq, exists_eq_left'] at noHigh noLow
    show n < 0xD800 ∨ (0xDFFF < n ∧ n < 0x110000)
    omega
  refine .units ?_
  rw [utf16, toNat_ofNat valid, if_pos bound]
  exact congrArg (fun u => [u]) unit

/-- Both halves are a character. -/
theorem stands_pair (first : high.value? = some n) (second : low.value? = some m)
    (isHigh : high.IsHigh) (isLow : low.IsLow) : Stands [high, low] (combine n m) := by
  simp only [Symbol.IsHigh, Symbol.IsLow, first, second, Option.some.injEq, exists_eq_left']
    at isHigh isLow
  have valid : (0x10000 + 0x400 * (n - 0xD800) + (m - 0xDC00)).isValidChar := by
    refine Or.inr ⟨?_, ?_⟩ <;> omega
  refine .units ?_
  rw [utf16, combine, toNat_ofNat valid, if_neg (by omega), List.map_cons, List.map_singleton, first,
    second]
  refine congrArg₂ (fun u v => [some u, some v]) ?_ ?_ <;> omega

/-- Surrogates give the character that they are of. -/
theorem combine_utf16 (beyond : ¬ c.toNat < 0x10000) :
    combine (0xD800 + (c.toNat - 0x10000) / 0x400) (0xDC00 + (c.toNat - 0x10000) % 0x400) = c := by
  have whole := Nat.div_add_mod (c.toNat - 0x10000) 0x400
  have number : 0x10000 + 0x400 * (0xD800 + (c.toNat - 0x10000) / 0x400 - 0xD800)
      + (0xDC00 + (c.toNat - 0x10000) % 0x400 - 0xDC00) = c.toNat := by omega
  rw [combine, number, Char.ofNat_toNat]

example : combine 0xD83D 0xDE00 = '😀' := by decide

/-- The units of a character are one that is no half, or both halves. -/
theorem single_or_pair (same : front.map Symbol.value? = (utf16 c).map some) :
    (∃ p n, front = [p] ∧ p.value? = some n ∧ ¬ p.IsHigh ∧ ¬ p.IsLow ∧ c = Char.ofNat n) ∨
      ∃ high low n m, front = [high, low] ∧ high.value? = some n ∧ low.value? = some m ∧
        high.IsHigh ∧ low.IsLow ∧ c = combine n m := by
  have valid := toNat_valid c
  unfold utf16 at same
  split at same
  · -- one unit, which is outside the range of halves
    obtain ⟨p, rfl, unit⟩ := List.map_eq_singleton_iff.mp same
    refine .inl ⟨p, c.toNat, rfl, unit, ?_, ?_, (Char.ofNat_toNat c).symm⟩ <;>
    · rintro ⟨n, hn, range⟩
      obtain rfl := Option.some.inj (unit.symm.trans hn)
      omega
  · -- two units, a first half and a second one
    rename_i beyond
    rw [List.map_cons, List.map_singleton] at same
    obtain ⟨high, others, rfl, first, same⟩ := List.map_eq_cons_iff.mp same
    obtain ⟨low, rfl, second⟩ := List.map_eq_singleton_iff.mp same
    exact .inr ⟨high, low, _, _, rfl, first, second, ⟨_, first, by omega⟩, ⟨_, second, by omega⟩,
      (combine_utf16 beyond).symm⟩

/-- What stands for a character is a symbol that is no half, or both halves. -/
theorem Stands.whole (h : Stands front c) :
    (∃ p, front = [p] ∧ ¬ p.IsHigh ∧ ¬ p.IsLow) ∨
      ∃ high low, front = [high, low] ∧ high.IsHigh ∧ low.IsLow := by
  cases h with
  | plain | letter =>
    refine .inl ⟨_, rfl, ?_, ?_⟩ <;>
    · rintro ⟨n, none, -⟩
      cases none
  | units same =>
    rcases single_or_pair same with ⟨p, n, rfl, -, noHigh, noLow, -⟩ |
      ⟨high, low, n, m, rfl, -, -, isHigh, isLow, -⟩
    · exact .inl ⟨p, rfl, noHigh, noLow⟩
    · exact .inr ⟨high, low, rfl, isHigh, isLow⟩

end Halves

/-! ## Halves behind whole characters -/

section Neighbours

variable {front before after : List Symbol} {p : Symbol} {c : Char}

/-- Taking away what stands further in front supplies no half. -/
theorem Lone.of_append (h : Lone (front ++ before) p after) : Lone before p after := by
  refine h.imp_right fun ⟨isLow, alone⟩ => ⟨isLow, fun q hq => alone q ?_⟩
  have last : before.getLast? = some q := hq
  rw [List.getLast?_append, last]
  rfl

/-- Nor does putting something there, if it does not end with a first half. -/
theorem Lone.append (closed : ∀ q ∈ front.getLast?, ¬ q.IsHigh) (h : Lone before p after) :
    Lone (front ++ before) p after := by
  refine h.imp_right fun ⟨isLow, alone⟩ => ⟨isLow, fun q hq => ?_⟩
  rw [List.getLast?_append] at hq
  rcases Option.or_eq_some_iff.mp hq with hq | ⟨-, hq⟩
  · exact alone q hq
  · exact closed q hq

/-- The symbols of one character do not end in a first half, so what follows them cannot be taken
    for its second half. -/
theorem Stands.closed (h : Stands front c) : ∀ q ∈ front.getLast?, ¬ q.IsHigh := by
  rcases h.whole with ⟨p, rfl, noHigh, -⟩ | ⟨high, low, rfl, -, isLow⟩
  · rintro _ ⟨⟩
    exact noHigh
  · rintro _ ⟨⟩
    exact isLow.not_isHigh

/-- No symbol of a whole character is lone. -/
theorem Stands.not_lone (h : Stands front c) (split : front = before ++ p :: after)
    (rest : List Symbol) : ¬ Lone before p (after ++ rest) := by
  rcases h.whole with ⟨q, rfl, noHigh, noLow⟩ | ⟨high, low, rfl, isHigh, isLow⟩
  · -- one symbol that is no half
    match before, split with
    | [], split =>
      cases split
      rintro (⟨isHigh, -⟩ | ⟨isLow, -⟩)
      · exact noHigh isHigh
      · exact noLow isLow
    | _ :: before, split => simp at split
  · -- a first and a second half, each of which has its other half beside it
    match before, split with
    | [], split =>
      cases split
      rintro (⟨-, alone⟩ | ⟨both, -⟩)
      · exact alone low rfl isLow
      · exact both.not_isHigh isHigh
    | [_], split =>
      cases split
      rintro (⟨both, -⟩ | ⟨-, alone⟩)
      · exact isLow.not_isHigh both
      · exact alone high rfl isHigh
    | _ :: _ :: before, split => simp at split

/-- A whole character in front leaves the lone symbols as they are. -/
theorem Stands.unpaired_iff (h : Stands front c) (symbols : List Symbol) :
    Unpaired (front ++ symbols) ↔ Unpaired symbols := by
  constructor
  · rintro ⟨before, p, after, split, lone⟩
    -- the lone symbol stands behind the character, or at once behind it, or is one of its own
    rcases List.append_eq_append_iff.mp split with ⟨behind, rfl, rfl⟩ | ⟨inside, rfl, same⟩
    · exact ⟨behind, p, after, rfl, lone.of_append⟩
    · cases inside with
      | nil =>
        have lone : Lone (before ++ []) p after := by rwa [List.append_nil]
        exact ⟨[], p, after, same.symm, lone.of_append⟩
      | cons q inside =>
        obtain ⟨rfl, rfl⟩ := List.cons.inj same
        exact absurd lone (h.not_lone rfl symbols)
  · rintro ⟨before, p, after, rfl, lone⟩
    exact ⟨front ++ before, p, after, (List.append_assoc ..).symm, lone.append h.closed⟩

/-- In front of a row stands a whole character, or a symbol that is lone. -/
theorem exists_front (p : Symbol) (symbols : List Symbol) :
    (∃ front c rest, p :: symbols = front ++ rest ∧ rest.length ≤ symbols.length ∧ Stands front c)
      ∨ Lone [] p symbols := by
  cases p with
  | plain c noMark => exact .inl ⟨[_], c, symbols, rfl, Nat.le_refl _, .plain noMark⟩
  | letter e c listed => exact .inl ⟨[_], c, symbols, rfl, Nat.le_refl _, .letter listed⟩
  | unit digits four hex =>
    have unit : (Symbol.unit digits four hex).value? = some (unitValue digits) := rfl
    generalize Symbol.unit digits four hex = p at unit ⊢
    by_cases isLow : p.IsLow
    · -- a second half in front has no first one before it
      exact .inr (.inr ⟨isLow, nofun⟩)
    by_cases isHigh : p.IsHigh
    · by_cases alone : ∀ q ∈ symbols.head?, ¬ q.IsLow
      · -- a first half without a second one behind it
        exact .inr (.inl ⟨isHigh, alone⟩)
      · -- a pair
        simp only [not_forall, not_not] at alone
        obtain ⟨q, head, low⟩ := alone
        obtain ⟨rest, rfl⟩ := List.head?_eq_some_iff.mp head
        have ⟨m, second, _⟩ := low
        exact .inl ⟨[p, q], _, rest, rfl, Nat.le_succ _, stands_pair unit second isHigh low⟩
    · -- a unit that is no half
      exact .inl ⟨[p], _, symbols, rfl, Nat.le_refl _, stands_single unit isHigh isLow⟩

end Neighbours

end Quoted

end GraphQL
