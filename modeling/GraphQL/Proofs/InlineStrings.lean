/-
  The decoder reads each inline string that the tokenizer takes, unless half a character is missing.

  Both know the escapes, each in its own way.  The tokenizer asks for a letter of a set or for four
  digits (`inlineBodyLength`); the decoder looks letters up, adds digits up and puts surrogates together
  (`Quoted.resolveEscapes`).  They meet in the symbols of a string.  What the tokenizer takes is a row
  of symbols between quotes, and each such row is taken (`exists_symbols`, `inlineBody_written`).

  The decoder goes along a row as `exists_front` says.  It gives the character that stands in front and
  goes on behind it (`Stands.resolveEscapes`), and at a half without the other it ends
  (`Lone.resolveEscapes`).  So it gives the text that the row stands for, or it ends within the row and
  then some symbol is lone (`spells_or_unpaired`).
-/
import GraphQL.Document.OfTree.Value
import GraphQL.Proofs.InlineSymbols
import GraphQL.Proofs.Relexing
import GraphQL.Proofs.Spelling

namespace GraphQL

namespace Quoted

/-! ## One escape -/

section Escapes

variable {cs rest : List Char}

/-- A character that is no backslash stands for itself. -/
theorem resolveEscapes_plain {c : Char} (noEscape : c ≠ '\\') (rest : List Char) :
    resolveEscapes (c :: rest) = (resolveEscapes rest).map (c :: ·) := by
  rw [resolveEscapes, if_neg noEscape]

/-- An escape that can be read stands for one character, and the decoding goes on behind it. -/
theorem resolveEscapes_escape {c : Char} (read : readEscape cs = .ok (c, rest)) :
    resolveEscapes ('\\' :: cs) = (resolveEscapes rest).map (c :: ·) := by
  rw [resolveEscapes, if_pos rfl]
  split
  · rename_i failed
    cases read.symm.trans failed
  · rename_i read'
    cases read.symm.trans read'
    rfl

/-- An escape that cannot be read ends the decoding with its mistake. -/
theorem resolveEscapes_error {e : QuotedError} (failed : readEscape cs = .error e) :
    resolveEscapes ('\\' :: cs) = .error e := by
  rw [resolveEscapes, if_pos rfl]
  split
  · rename_i failed'
    cases failed.symm.trans failed'
    rfl
  · rename_i read
    cases failed.symm.trans read

theorem readEscape_unit (cs : List Char) : readEscape ('u' :: cs) = readCharacter cs := by
  rw [readEscape, if_pos rfl]

/-- As many digits as are asked for are read, whatever comes behind them. -/
theorem readDigits_append {digits : List Char} (hex : ∀ c ∈ digits, isHexDigit c = true)
    (seen rest : List Char) :
    readDigits seen digits.length (digits ++ rest) = .ok (seen ++ digits, rest) := by
  induction digits generalizing seen with
  | nil => rw [List.length_nil, List.nil_append, List.append_nil, readDigits]
  | cons c digits ih =>
    obtain ⟨first, others⟩ := List.forall_mem_cons.mp hex
    rw [List.length_cons, List.cons_append, readDigits, if_pos first, ih others, List.append_assoc]
    rfl

end Escapes

/-! ## One symbol -/

section Symbols

variable {p high low : Symbol} {n m : Nat} {symbols : List Symbol}

/-- A backslash and a listed letter stand for the character of that letter. -/
theorem resolveEscapes_letter {e c : Char} (listed : (e, c) ∈ letters) (rest : List Char) :
    resolveEscapes ('\\' :: e :: rest) = (resolveEscapes rest).map (c :: ·) := by
  refine resolveEscapes_escape ?_
  rw [readEscape, if_neg (ne_of_listed listed), escaped?_eq_some_iff.mpr listed]

/-- A symbol that gives a unit is read as that unit. -/
theorem Symbol.exists_readUnit (unit : p.value? = some n) (rest : List Char) :
    ∃ cs, p.written ++ rest = '\\' :: 'u' :: cs ∧ readUnit cs = .ok (n, rest) := by
  cases p with
  | plain | letter => cases unit
  | unit digits four hex =>
    cases unit
    have read := readDigits_append hex [] rest
    rw [four] at read
    refine ⟨digits ++ rest, rfl, ?_⟩
    rw [readUnit, read]
    show Except.ok (hexNumber digits, rest) = _
    rw [hexNumber_eq hex]

/-- A unit that is no half of a pair stands for the character with its number. -/
theorem resolveEscapes_single (unit : p.value? = some n) (noHigh : ¬ p.IsHigh) (noLow : ¬ p.IsLow)
    (rest : List Char) :
    resolveEscapes (p.written ++ rest) = (resolveEscapes rest).map (Char.ofNat n :: ·) := by
  obtain ⟨cs, text, read⟩ := p.exists_readUnit unit rest
  rw [p.isHigh_iff unit] at noHigh
  rw [p.isLow_iff unit] at noLow
  rw [text]
  refine resolveEscapes_escape ?_
  rw [readEscape_unit, readCharacter, read]
  exact (if_neg noHigh).trans (if_neg noLow)

/-- Two halves of a pair, the first one first, stand for one character. -/
theorem resolveEscapes_pair (first : high.value? = some n) (second : low.value? = some m)
    (isHigh : high.IsHigh) (isLow : low.IsLow) (rest : List Char) :
    resolveEscapes (high.written ++ (low.written ++ rest))
      = (resolveEscapes rest).map (combine n m :: ·) := by
  obtain ⟨cs, text, read⟩ := high.exists_readUnit first (low.written ++ rest)
  obtain ⟨ds, text', read'⟩ := low.exists_readUnit second rest
  rw [high.isHigh_iff first] at isHigh
  rw [low.isLow_iff second] at isLow
  rw [text]
  refine resolveEscapes_escape ?_
  rw [readEscape_unit, readCharacter, read, text']
  simp only [isHigh, if_true, read', isLow]

/-- A second half in front ends the decoding. -/
theorem resolveEscapes_low (unit : p.value? = some n) (isLow : p.IsLow) (rest : List Char) :
    resolveEscapes (p.written ++ rest) = .error (.badUnit (unitEscape n)) := by
  obtain ⟨cs, text, read⟩ := p.exists_readUnit unit rest
  have noHigh := isLow.not_isHigh
  rw [p.isHigh_iff unit] at noHigh
  rw [p.isLow_iff unit] at isLow
  rw [text]
  refine resolveEscapes_error ?_
  rw [readEscape_unit, readCharacter, read]
  exact (if_neg noHigh).trans (if_pos isLow)

/-- A first half in front that no second half follows ends the decoding.  If another unit follows,
    that is the one that is reported. -/
theorem resolveEscapes_high (unit : p.value? = some n) (isHigh : p.IsHigh)
    (alone : ∀ q ∈ symbols.head?, ¬ q.IsLow) :
    ∃ escape, resolveEscapes (p.written ++ written symbols) = .error (.badUnit escape) := by
  obtain ⟨cs, text, read⟩ := p.exists_readUnit unit (written symbols)
  rw [p.isHigh_iff unit] at isHigh
  rw [text]
  cases follows : symbols.head?.bind Symbol.value? with
  | none =>
    -- no unit follows, and the first half is what is named
    refine ⟨unitEscape n, resolveEscapes_error ?_⟩
    rw [readEscape_unit, readCharacter, read]
    simp only [isHigh, if_true]
    split
    · rename_i same
      exact absurd same (written_ne_unit follows _)
    · rfl
  | some m =>
    -- a unit follows that is no second half, and it is what is named
    obtain ⟨q, head, next⟩ := Option.bind_eq_some_iff.mp follows
    obtain ⟨others, rfl⟩ := List.head?_eq_some_iff.mp head
    obtain ⟨ds, text', read'⟩ := q.exists_readUnit next (written others)
    have noLow := alone q head
    rw [q.isLow_iff next] at noLow
    refine ⟨unitEscape m, resolveEscapes_error ?_⟩
    rw [readEscape_unit, readCharacter, read, written_cons, text']
    simp only [isHigh, if_true, read', noLow]
    rfl

end Symbols

/-! ## A row of symbols -/

/-- What stands for a character is read as the character, whatever comes behind it. -/
theorem Stands.resolveEscapes {front : List Symbol} {c : Char} (h : Stands front c)
    (rest : List Char) :
    resolveEscapes (written front ++ rest) = (resolveEscapes rest).map (c :: ·) := by
  cases h with
  | plain noMark => exact resolveEscapes_plain (ne_backslash noMark) rest
  | letter listed => exact resolveEscapes_letter listed rest
  | units same =>
    rcases single_or_pair same with ⟨p, n, rfl, unit, noHigh, noLow, char⟩ |
      ⟨high, low, n, m, rfl, first, second, isHigh, isLow, char⟩
    · rw [written_cons, List.append_assoc, char]
      exact resolveEscapes_single unit noHigh noLow rest
    · rw [written_cons, written_cons, List.append_assoc, List.append_assoc, char]
      exact resolveEscapes_pair first second isHigh isLow rest

/-- At a symbol that is lone the decoding ends. -/
theorem Lone.resolveEscapes {p : Symbol} {symbols : List Symbol} (h : Lone [] p symbols) :
    ∃ escape, resolveEscapes (written (p :: symbols)) = .error (.badUnit escape) := by
  rcases h with ⟨isHigh, alone⟩ | ⟨isLow, -⟩
  · have ⟨n, unit, _⟩ := isHigh
    exact resolveEscapes_high unit isHigh alone
  · have ⟨n, unit, _⟩ := isLow
    exact ⟨_, resolveEscapes_low unit isLow (written symbols)⟩

/-- What some symbols spell is what the decoder reads from the way they are written. -/
theorem Spells.resolveEscapes {symbols : List Symbol} {text : List Char} (h : Spells symbols text) :
    resolveEscapes (written symbols) = .ok text := by
  induction h with
  | nil => rw [written, List.flatMap_nil, Quoted.resolveEscapes]
  | cons stands _ ih =>
    rw [written_append, stands.resolveEscapes, ih]
    rfl

/-- A row stands for a text and no symbol of it is lone, or one is and the decoding ends within the
    row.  Induction along the characters in front. -/
theorem spells_or_unpaired (symbols : List Symbol) :
    (∃ text, Spells symbols text ∧ ¬ Unpaired symbols) ∨
      (Unpaired symbols ∧ ∃ escape, resolveEscapes (written symbols) = .error (.badUnit escape)) := by
  match symbols with
  | [] =>
    refine .inl ⟨[], .nil, ?_⟩
    rintro ⟨before, p, after, none, -⟩
    simp at none
  | p :: symbols =>
    rcases exists_front p symbols with ⟨front, c, rest, split, shorter, stands⟩ | lone
    · rw [split, stands.unpaired_iff]
      rcases spells_or_unpaired rest with ⟨text, spells, paired⟩ | ⟨unpaired, escape, failed⟩
      · exact .inl ⟨c :: text, .cons stands spells, paired⟩
      · refine .inr ⟨unpaired, escape, ?_⟩
        rw [written_append, stands.resolveEscapes, failed]
        rfl
    · exact .inr ⟨⟨[], p, symbols, rfl, lone⟩, lone.resolveEscapes⟩
termination_by symbols.length
decreasing_by
  simp only [List.length_cons]
  omega

/-- The decoder gives a text exactly if a row stands for it, and for no other reason than a lone
    symbol it gives none. -/
theorem resolveEscapes_written (symbols : List Symbol) :
    (∀ e, resolveEscapes (written symbols) = .error e → ∃ escape, e = .badUnit escape) ∧
    ((∃ e, resolveEscapes (written symbols) = .error e) ↔ Unpaired symbols) ∧
    ∀ text, resolveEscapes (written symbols) = .ok text ↔ Spells symbols text := by
  rcases spells_or_unpaired symbols with ⟨text, spells, paired⟩ | ⟨unpaired, escape, failed⟩
  · -- the symbols spell a text, and it is read
    have read := spells.resolveEscapes
    rw [read]
    refine ⟨fun _ => nofun, iff_of_false (by rintro ⟨_, ⟨⟩⟩) paired, fun other => ?_⟩
    constructor
    · rintro ⟨⟩
      exact spells
    · intro spells'
      exact read.symm.trans spells'.resolveEscapes
  · -- a half is unpaired, and reading fails
    rw [failed]
    refine ⟨fun e same => ⟨escape, (Except.error.inj same).symm⟩, iff_of_true ⟨_, rfl⟩ unpaired,
      fun other => iff_of_false nofun fun spells => ?_⟩
    rw [spells.resolveEscapes] at failed
    cases failed

/-! ## Between quotes -/

/-- A text between quotes. -/
def quoted (content : List Char) : List Char := '"' :: (content ++ ['"'])

theorem quoted_injective : Function.Injective quoted := fun _ _ same =>
  List.append_cancel_right (List.cons.inj same).2

/-- The quotes around an inline string are no part of what it stands for. -/
theorem decodeInline_quoted (content : List Char) :
    decodeInline (quoted content) = resolveEscapes content := by
  have inside : between ['"'] (quoted content) = some content := between_append ['"'] content
  rw [decodeInline, inside]

/-- What is written for a character if nothing is escaped that can stand for itself. -/
def escape : Char → List Char
  | '\\' => ['\\', '\\']
  | '"' => ['\\', '"']
  | '\n' => ['\\', 'n']
  | '\r' => ['\\', 'r']
  | c => [c]

/-- A text as an inline string. -/
def literal (text : String) : String := String.ofList (quoted (text.toList.flatMap escape))

/-- Each character is written, escaped where it has to be, as one symbol that stands for it. -/
theorem exists_stands (c : Char) : ∃ p : Symbol, p.written = escape c ∧ Stands [p] c := by
  unfold escape
  split
  · exact ⟨_, rfl, .letter (by decide : ('\\', '\\') ∈ letters)⟩
  · exact ⟨_, rfl, .letter (by decide : ('"', '"') ∈ letters)⟩
  · exact ⟨_, rfl, .letter (by decide : ('n', '\n') ∈ letters)⟩
  · exact ⟨_, rfl, .letter (by decide : ('r', '\r') ∈ letters)⟩
  · rename_i noBackslash noQuote noLineFeed noReturn
    have noMark : c ∉ marks := by
      simp only [marks, List.mem_cons, List.not_mem_nil, or_false]
      rintro (same | same | same | same)
      · exact noQuote same
      · exact noBackslash same
      · exact noLineFeed same
      · exact noReturn same
    exact ⟨_, rfl, .plain noMark⟩

/-- Every text is written in some row of symbols. -/
theorem exists_spells (text : List Char) :
    ∃ symbols, written symbols = text.flatMap escape ∧ Spells symbols text := by
  induction text with
  | nil => exact ⟨[], rfl, .nil⟩
  | cons c text ih =>
    obtain ⟨p, first, stands⟩ := exists_stands c
    obtain ⟨symbols, others, spells⟩ := ih
    exact ⟨[p] ++ symbols, congrArg₂ (· ++ ·) first others, .cons stands spells⟩

/-! ## Tokens -/

/-- After an opening quote the tokenizer takes any row of symbols and a quote. -/
theorem inlineBody_written (symbols : List Symbol) : InlineBody (written symbols ++ ['"']) := by
  induction symbols with
  | nil => exact .close
  | cons p symbols ih =>
    rw [written_cons, List.append_assoc]
    cases p with
    | plain c noMark =>
      simp only [marks, List.mem_cons, List.not_mem_nil, or_false, not_or] at noMark
      exact .plain noMark.1 (by simp [noMark]) ih
    | letter e c listed => exact .escape (isSimpleEscape_iff.mpr ⟨c, listed⟩) ih
    | unit digits four hex =>
      match digits, four with
      | [a, b, c, d], _ => exact .unicode (by simpa [and_assoc] using hex) ih

/-- What it takes there is a row of symbols and a quote. -/
theorem exists_symbols {body : List Char} (h : InlineBody body) :
    ∃ symbols, body = written symbols ++ ['"'] := by
  induction h with
  | close => exact ⟨[], rfl⟩
  | @unicode a b c d body hex _ ih =>
    obtain ⟨symbols, rfl⟩ := ih
    exact ⟨.unit [a, b, c, d] rfl (by simpa [and_assoc] using hex) :: symbols, rfl⟩
  | @escape e body simple _ ih =>
    obtain ⟨symbols, rfl⟩ := ih
    obtain ⟨c, listed⟩ := isSimpleEscape_iff.mp simple
    exact ⟨.letter e c listed :: symbols, rfl⟩
  | @plain c body noQuote plain _ ih =>
    obtain ⟨symbols, rfl⟩ := ih
    have noMark : c ∉ marks := by simpa [marks, noQuote, and_assoc] using plain
    exact ⟨.plain c noMark :: symbols, rfl⟩

/-- The token of an inline string holds a row of symbols between quotes. -/
theorem exists_symbols_of_mem_ofSource {source : String} {file : Option String} {t : Token}
    (ht : t ∈ (Scan.ofSource source file).tokens) (kind : t.kind = .inlineString) :
    ∃ symbols, t.text.toList = quoted (written symbols) := by
  obtain ⟨k, language, shown⟩ := exists_language_of_mem_ofSource ht
  rw [kind] at shown
  obtain rfl : k = .inlineString := LexemeClass.eq_of_kind shown rfl
  obtain ⟨body, text, inside⟩ := language
  obtain ⟨symbols, rfl⟩ := exists_symbols inside
  exact ⟨symbols, text⟩

/-- A row of symbols between quotes is one token, where nothing else stands. -/
theorem exists_token_of_symbols (symbols : List Symbol) (file : Option String) :
    (Scan.ofSource (String.ofList (quoted (written symbols))) file).errors = [] ∧
    ∃ t, (Scan.ofSource (String.ofList (quoted (written symbols))) file).tokens = [t] ∧
      t.kind = .inlineString ∧ t.text = String.ofList (quoted (written symbols)) := by
  have language : LexemeClass.inlineString.Language (quoted (written symbols)) :=
    ⟨_, rfl, inlineBody_written symbols⟩
  have lexes : LexesTo (quoted (written symbols) ++ [])
      [(.inlineString, String.ofList (quoted (written symbols)))] :=
    .shown .nil language rfl fun _ => nofun
  rw [List.append_nil] at lexes
  have whole : LexesTo (String.ofList (quoted (written symbols))).toList
      [(.inlineString, String.ofList (quoted (written symbols)))] := by
    rwa [String.toList_ofList]
  obtain ⟨clean, signs⟩ := whole.scan file
  obtain ⟨t, tokens, sign⟩ := List.map_eq_singleton_iff.mp signs
  obtain ⟨kind, text⟩ := Prod.mk.inj sign
  exact ⟨clean, t, tokens, kind, text⟩

/-- A literal that is a row of symbols between quotes gives what the decoder gives for the row. -/
theorem text_ofToken {t : Token} {symbols : List Symbol} (kind : t.kind = .inlineString)
    (text : t.text.toList = quoted (written symbols)) :
    (StringValue.ofToken t).text = (resolveEscapes (written symbols)).map String.ofList := by
  rw [StringValue.text, StringValue.ofToken, kind]
  show (decodeInline t.text.toList).map String.ofList = _
  rw [text, decodeInline_quoted]

section Strings

variable {read : Except QuotedError (List Char)}

/-- A reading gives a string if and only if it gives the characters of that string. -/
theorem map_ofList_eq_ok_iff {text : String} :
    read.map String.ofList = .ok text ↔ read = .ok text.toList := by
  cases read with
  | error => exact iff_of_false nofun nofun
  | ok cs =>
    constructor
    · rintro ⟨⟩
      rw [String.toList_ofList]
    · rintro ⟨⟩
      exact congrArg Except.ok String.ofList_toList

/-- A reading fails the same way whether it is to give characters or a string. -/
theorem map_ofList_eq_error_iff {e : QuotedError} :
    read.map String.ofList = .error e ↔ read = .error e := by
  cases read with
  | error =>
    constructor <;>
    · rintro ⟨⟩
      rfl
  | ok => exact iff_of_false nofun nofun

end Strings

end Quoted

/-- The tokenizer and the decoder agree on inline strings.  The text of each token of an inline
    string, of any source, is one row of symbols between quotes and no other.  Its decoding fails
    for no other reason than a bad unit, and it does so exactly if one of these symbols is half a
    character and has not the other half beside it; else it gives the text that the symbols stand
    for.  Conversely any text, with its backslashes, quotes and line ends escaped, is read as one
    token without an error, and decoding this token gives the text. -/
theorem inline_strings_read_as_written :
    (∀ (source : String) (file : Option String), ∀ t ∈ (Scan.ofSource source file).tokens,
      t.kind = .inlineString → ∃ symbols,
        (∀ others, t.text.toList = Quoted.quoted (Quoted.written others) ↔ others = symbols) ∧
        (∀ e, (StringValue.ofToken t).text = .error e → ∃ escape, e = .badUnit escape) ∧
        ((∃ e, (StringValue.ofToken t).text = .error e) ↔ Quoted.Unpaired symbols) ∧
        ∀ text, (StringValue.ofToken t).text = .ok text ↔ Quoted.Spells symbols text.toList) ∧
    (∀ (text : String) (file : Option String),
      (Scan.ofSource (Quoted.literal text) file).errors = [] ∧
      ∃ t, (Scan.ofSource (Quoted.literal text) file).tokens = [t] ∧ t.kind = .inlineString ∧
        t.text = Quoted.literal text ∧ (StringValue.ofToken t).text = .ok text) := by
  refine ⟨fun source file t ht kind => ?_, fun text file => ?_⟩
  · -- a token of the kind is written in one way, and what holds of its symbols holds of it
    obtain ⟨symbols, written⟩ := Quoted.exists_symbols_of_mem_ofSource ht kind
    obtain ⟨reason, fails, gives⟩ := Quoted.resolveEscapes_written symbols
    rw [Quoted.text_ofToken kind written, written]
    simp only [Quoted.map_ofList_eq_ok_iff, Quoted.map_ofList_eq_error_iff]
    refine ⟨symbols, fun others => ?_, reason, fails, fun text => gives text.toList⟩
    rw [Quoted.quoted_injective.eq_iff, Quoted.written_injective.eq_iff]
    exact eq_comm
  · -- a text is written as symbols that spell it, and these are read as one token
    obtain ⟨symbols, written, spells⟩ := Quoted.exists_spells text.toList
    obtain ⟨clean, t, tokens, kind, literal⟩ := Quoted.exists_token_of_symbols symbols file
    have inside : t.text.toList = Quoted.quoted (Quoted.written symbols) := by
      rw [literal, String.toList_ofList]
    rw [written] at clean tokens literal
    refine ⟨clean, t, tokens, kind, literal, ?_⟩
    rw [Quoted.text_ofToken kind inside, spells.resolveEscapes]
    exact congrArg Except.ok String.ofList_toList

/-- Two inline strings.  In the first the digits behind an escaped backslash are no escape, and two
    surrogates stand behind them; in the second an escaped backslash stands between what would be
    two surrogates. -/
def halves : String := "\"\\\\uD83D\\uD83D\\uDE00\" \"\\uD83D\\\\uDE00\""

/-- So the first gives a text, and the second fails at its first half. -/
theorem inline_strings_read_as_written_halves :
    (∃ t ∈ (Scan.ofSource halves none).tokens, t.kind = .inlineString ∧ ∃ symbols,
      t.text.toList = Quoted.quoted (Quoted.written symbols) ∧ ¬ Quoted.Unpaired symbols ∧
      Quoted.Spells symbols "\\uD83D😀".toList) ∧
    ∃ t ∈ (Scan.ofSource halves none).tokens, t.kind = .inlineString ∧ ∃ symbols,
      t.text.toList = Quoted.quoted (Quoted.written symbols) ∧ Quoted.Unpaired symbols ∧
      (StringValue.ofToken t).text = .error (.badUnit "\\uD83D".toList) := by
  have met : (∃ t ∈ (Scan.ofSource halves none).tokens,
        t.kind = .inlineString ∧ (StringValue.ofToken t).text = .ok "\\uD83D😀") ∧
      ∃ t ∈ (Scan.ofSource halves none).tokens, t.kind = .inlineString ∧
        (StringValue.ofToken t).text = .error (.badUnit "\\uD83D".toList) := by decide +kernel
  obtain ⟨⟨t, ht, kind, whole⟩, u, hu, kind', half⟩ := met
  obtain ⟨symbols, written, -, fails, gives⟩ :=
    inline_strings_read_as_written.1 halves none t ht kind
  obtain ⟨symbols', written', -, fails', -⟩ :=
    inline_strings_read_as_written.1 halves none u hu kind'
  refine ⟨⟨t, ht, kind, symbols, (written symbols).mpr rfl, ?_, (gives _).mp whole⟩,
    u, hu, kind', symbols', (written' symbols').mpr rfl, fails'.mp ⟨_, half⟩, half⟩
  rw [← fails]
  rintro ⟨e, failed⟩
  cases whole.symm.trans failed

end GraphQL
