/-
  A token is read again in any company.

  A token was cut from its text in one context and is now to be found in another: behind it stands a
  separator, or nothing.  That its own characters are enough is not clear at once.  The classes are
  tried in an order, a number may have been followed by letters, and three quotes that open no block
  string are read as inline strings.

  Two facts settle it.  First, each class of tokens measures its own texts in full, when what comes
  behind begins nothing but what is ignored (`measure_append`).  Second, the first character of a
  text leaves one class to be tried, or the two of numbers, or the two of strings (`lead_eq`); of such
  two the earlier one fails where it should (`first?_append`).

  Separators are read away piece by piece, wherever they stand (`Separator.lexesTo`).  So a text that
  joins tokens by separators lexes to these tokens (`lexesTo_of_joins`).
-/
import GraphQL.Proofs.Placement
import GraphQL.Proofs.Signs

namespace GraphQL

/-! ## What may come behind a token -/

/-- The characters that begin what is ignored. -/
def ignoredStarts : List Char := [' ', '\t', '\n', '\r', ',', '\uFEFF', '#']

/-- Whether nothing comes, or something that is ignored. -/
def Ends (after : List Char) : Prop := ∀ c ∈ after.head?, c ∈ ignoredStarts

namespace Ends

variable {after : List Char}

theorem noDigit (h : Ends after) : NoDigit after := by
  have none : ignoredStarts.any isDigit = false := by decide
  intro c hc
  exact eq_false_of_ne_true (List.any_eq_false.mp none c (h c hc))

theorem noNamePart (h : Ends after) : ∀ c ∈ after.head?, isNamePart c = false := by
  have none : ignoredStarts.any isNamePart = false := by decide
  intro c hc
  exact eq_false_of_ne_true (List.any_eq_false.mp none c (h c hc))

theorem noFraction (h : Ends after) : fractionLength after = 0 := by
  unfold fractionLength
  split
  · exact absurd (h '.' rfl) (by decide)
  · rfl

theorem noExponent (h : Ends after) : exponentLength after = 0 := by
  unfold exponentLength
  split
  · exact absurd (h 'e' rfl) (by decide)
  · exact absurd (h 'E' rfl) (by decide)
  · rfl

end Ends

namespace LexemeClass

/-- A text of a class of tokens is measured in full in front of what is ignored. -/
theorem measure_append {k : LexemeClass} {text after : List Char} (h : k.Language text)
    (shown : (k.tokenKind? text).isSome = true) (ends : Ends after) :
    k.measure (text ++ after) = text.length := by
  cases k with
  -- what is ignored is no token
  | blank | byteOrderMark | lineEnd | comment | comma => cases shown
  | mark p =>
    obtain rfl : text = p.text.toList := h
    have front : p.text.toList.isPrefixOf (p.text.toList ++ after) = true :=
      List.isPrefixOf_iff_prefix.mpr (List.prefix_append ..)
    exact if_pos front
  | word =>
    -- a name ends where no part of a name follows
    obtain ⟨c, rest, rfl, start, parts⟩ := h
    have run : runLength isNamePart (rest ++ after) = rest.length :=
      runLength_append parts ends.noNamePart
    show (if isNameStart c then 1 + runLength isNamePart (rest ++ after) else 0) = _
    rw [if_pos start, run, List.length_cons, Nat.add_comm]
  -- a number ends where neither a digit nor an exponent follows
  | float => exact Floating.measure h ends.noDigit ends.noExponent
  | int => exact Whole.measure h ends.noDigit
  | blockString =>
    -- a string ends with its own quotes, whatever follows
    obtain ⟨body, rfl, inside⟩ := h
    simp only [measure, List.cons_append, blockStringLength, inside.measure after,
      List.length_cons]
    omega
  | inlineString =>
    obtain ⟨body, rfl, inside⟩ := h
    simp only [measure, List.cons_append, inlineStringLength, inside.measure after,
      List.length_cons]
    omega

/-! ## First characters -/

/-- The class that stands for those that begin alike: floats begin like whole numbers, and block
    strings like inline ones. -/
def family : LexemeClass → LexemeClass
  | .float => .int
  | .blockString => .inlineString
  | k => k

/-- The classes that a first character leaves, by the one that stands for them. -/
def lead (c : Char) : Option LexemeClass :=
  if isNameStart c then some .word
  else if c == '-' || isDigit c then some .int
  else if c == '"' then some .inlineString
  else if isBlank c then some .blank
  else if c == '\r' || c == '\n' then some .lineEnd
  else if c == '\uFEFF' then some .byteOrderMark
  else if c == '#' then some .comment
  else if c == ',' then some .comma
  else (Punctuator.all.find? fun p => p.text.toList.head? == some c).map .mark

/-- No digit begins a name: all of them come before the letters. -/
theorem isNameStart_of_isDigit {c : Char} (h : isDigit c = true) : isNameStart c = false := by
  obtain ⟨-, high⟩ := Bool.and_eq_true_iff.mp h
  have high : c ≤ '9' := of_decide_eq_true high
  refine Bool.eq_false_iff.mpr fun start => ?_
  have letters : '9' < c := by
    rcases Bool.or_eq_true_iff.mp start with start | lower
    · rcases Bool.or_eq_true_iff.mp start with line | upper
      · rw [eq_of_beq line]
        decide
      · have above : 'A' ≤ c := of_decide_eq_true (Bool.and_eq_true_iff.mp upper).1
        exact UInt32.lt_of_lt_of_le (by decide : ('9' : Char) < _) above
    · have above : 'a' ≤ c := of_decide_eq_true (Bool.and_eq_true_iff.mp lower).1
      exact UInt32.lt_of_lt_of_le (by decide : ('9' : Char) < _) above
  exact absurd high (Char.not_le.mpr letters)

theorem lead_of_digit {c : Char} (h : isDigit c = true) : lead c = some .int := by
  rw [lead, isNameStart_of_isDigit h, h, Bool.or_true]
  rfl

/-- A character that begins an integer leads to it. -/
theorem lead_of_whole {c : Char} {cs : List Char} (h : 0 < intLength (c :: cs)) :
    lead c = some .int := by
  have whole := whole_take h
  obtain ⟨n, hn⟩ := Nat.exists_eq_succ_of_ne_zero (Nat.ne_of_gt h)
  rw [hn, List.take_succ_cons] at whole
  cases whole with
  | plain natural =>
    obtain ⟨d, ds, same, digit⟩ := natural.head
    obtain ⟨rfl, -⟩ := List.cons.inj same
    exact lead_of_digit digit
  | negative => rfl

/-- The first character of a lexeme leads to its class. -/
theorem lead_eq {k : LexemeClass} {c : Char} {cs : List Char} (h : 0 < k.measure (c :: cs)) :
    lead c = some k.family := by
  have language := language_take h
  obtain ⟨n, hn⟩ := Nat.exists_eq_succ_of_ne_zero (Nat.ne_of_gt h)
  rw [hn, List.take_succ_cons] at language
  -- the first character of a lexeme, class by class
  cases k with
  | blank =>
    rcases (by simpa [isBlank] using language.2 c List.mem_cons_self : c = ' ' ∨ c = '\t') with
      rfl | rfl <;> decide
  | byteOrderMark | comma =>
    obtain ⟨rfl, -⟩ := List.cons.inj language
    decide
  | lineEnd =>
    rcases language with same | same | same
    all_goals
      obtain ⟨rfl, -⟩ := List.cons.inj same
      decide
  | comment =>
    obtain ⟨text, same, -⟩ := language
    obtain ⟨rfl, -⟩ := List.cons.inj same
    decide
  | mark p =>
    have first : c = p.text.toList.headD ' ' := congrArg (·.headD ' ') language
    rw [first]
    cases p <;> decide
  | word =>
    obtain ⟨_, _, same, start, -⟩ := language
    obtain ⟨rfl, -⟩ := List.cons.inj same
    rw [lead, start]
    rfl
  | int => exact lead_of_whole h
  | float =>
    have whole : 0 < intLength (c :: cs) := Nat.pos_of_ne_zero fun none => by
      simp [measure, floatLength, none] at h
    exact lead_of_whole whole
  | blockString | inlineString =>
    obtain ⟨_, same, -⟩ := language
    obtain ⟨rfl, -⟩ := List.cons.inj same
    decide

/-! ## The class that is found -/

/-- If a class among the first of the table has a lexeme in front, and none of its family before it,
    it is found. -/
theorem first?_eq_some {k : LexemeClass} {c : Char} {cs : List Char}
    {before after : List LexemeClass} (split : table = before ++ after) (mem : k ∈ before)
    (pos : 0 < k.measure (c :: cs))
    (sole : ∀ d ∈ before, d.family = k.family → 0 < d.measure (c :: cs) → d = k) :
    first? (c :: cs) = some k := by
  have found : (before.find? fun d => decide (0 < d.measure (c :: cs))).isSome = true :=
    List.find?_isSome.mpr ⟨k, mem, decide_eq_true pos⟩
  obtain ⟨d, hd⟩ := Option.isSome_iff_exists.mp found
  have measured : 0 < d.measure (c :: cs) := by simpa using List.find?_some hd
  have alike : d.family = k.family :=
    Option.some.inj ((lead_eq measured).symm.trans (lead_eq pos))
  rw [first?, split, List.find?_append, hd,
    sole d (List.mem_of_find?_eq_some hd) alike measured]
  rfl

/-- Every class is tried. -/
theorem mem_table (k : LexemeClass) : k ∈ table := by
  cases k with
  | mark p => cases p <;> decide
  | _ => decide

/-- A class that no other begins like is found where it has a lexeme. -/
theorem first?_of_pos {k : LexemeClass} {c : Char} {cs : List Char}
    (pos : 0 < k.measure (c :: cs)) (alone : ∀ d : LexemeClass, d.family = k.family → d = k) :
    first? (c :: cs) = some k :=
  first?_eq_some (List.append_nil _).symm (mem_table k) pos fun d _ alike _ => alone d alike

/-- A float is found where there is one: whole numbers, which begin like it, are tried after it. -/
theorem first?_of_float {c : Char} {cs : List Char} (pos : 0 < float.measure (c :: cs)) :
    first? (c :: cs) = some .float := by
  have split : table = table.take 21 ++ [.int, .blockString, .inlineString] := by decide
  have sole : ∀ d ∈ table.take 21, d.family = .int → d = .float := by decide
  exact first?_eq_some split (by decide) pos fun d hd alike _ => sole d hd alike

/-- So is a block string: inline strings are tried after it. -/
theorem first?_of_blockString {c : Char} {cs : List Char}
    (pos : 0 < blockString.measure (c :: cs)) : first? (c :: cs) = some .blockString := by
  have split : table = table.take 23 ++ [.inlineString] := by decide
  have sole : ∀ d ∈ table.take 23, d.family = .inlineString → d = .blockString := by decide
  exact first?_eq_some split (by decide) pos fun d hd alike _ => sole d hd alike

/-- An inline string is no block string where no quote comes behind it. -/
theorem blockStringLength_eq_zero {body after : List Char} (inside : InlineBody body)
    (ends : Ends after) : blockStringLength ('"' :: (body ++ after)) = 0 := by
  unfold blockStringLength
  split
  · rename_i rest same
    exfalso
    have same : body ++ after = '"' :: '"' :: rest := (List.cons.inj same).2
    cases inside with
    | close =>
      have quote : after = '"' :: rest := (List.cons.inj same).2
      exact absurd (ends '"' (quote ▸ rfl)) (by decide)
    | unicode | escape => cases same
    | plain noQuote => exact noQuote (List.cons.inj same).1
  · rfl

/-- In front of what is ignored a token is found by its class. -/
theorem first?_append {k : LexemeClass} {text after : List Char} (h : k.Language text)
    (shown : (k.tokenKind? text).isSome = true) (ends : Ends after) :
    first? (text ++ after) = some k := by
  have full := measure_append h shown ends
  obtain ⟨c, rest, rfl⟩ := List.exists_cons_of_ne_nil (ne_nil_of_language h)
  have pos : 0 < k.measure (c :: (rest ++ after)) := by
    rw [← List.cons_append, full]
    exact Nat.succ_pos _
  rw [List.cons_append]
  cases k with
  | blank | byteOrderMark | lineEnd | comment | comma => cases shown
  | mark p => exact first?_of_pos pos fun d alike => by cases d <;> first | exact alike | cases alike
  | word => exact first?_of_pos pos fun d alike => by cases d <;> first | rfl | cases alike
  | float => exact first?_of_float pos
  | int =>
    -- an integer would be a float only if a fraction or an exponent followed
    refine first?_eq_some (List.append_nil _).symm (by decide) pos fun d _ alike measured => ?_
    cases d with
    | int => rfl
    | float =>
      have none := Whole.floatLength_eq_zero h ends.noDigit ends.noFraction ends.noExponent
      exact absurd measured (Nat.not_lt.mpr (Nat.le_of_eq none))
    | _ => cases alike
  | blockString => exact first?_of_blockString pos
  | inlineString =>
    -- an inline string would be a block string only if a quote followed
    refine first?_eq_some (List.append_nil _).symm (by decide) pos fun d _ alike measured => ?_
    cases d with
    | inlineString => rfl
    | blockString =>
      obtain ⟨body, same, inside⟩ := h
      have none := blockStringLength_eq_zero inside ends
      obtain ⟨rfl, rfl⟩ := List.cons.inj same
      exact absurd measured (Nat.not_lt.mpr (Nat.le_of_eq none))
    | _ => cases alike

end LexemeClass

/-! ## Texts that lex -/

/-- The sign of the token that a piece is, if it is one. -/
def Piece.sign? : Piece → Option Sign
  | .lexeme c text => (c.tokenKind? text).map fun kind => (kind, String.ofList text)
  | .stray _ => none

/-- A text lexes to tokens with some signs, and no character of it is astray. -/
inductive LexesTo : List Char → List Sign → Prop where
  | nil : LexesTo [] []
  | ignored {k : LexemeClass} {cs : List Char} {signs : List Sign}
      (first : LexemeClass.first? cs = some k)
      (hidden : k.tokenKind? (cs.take (k.measure cs)) = none)
      (others : LexesTo (cs.drop (k.measure cs)) signs) : LexesTo cs signs
  | token {k : LexemeClass} {cs : List Char} {kind : TokenKind} {signs : List Sign}
      (first : LexemeClass.first? cs = some k)
      (shown : k.tokenKind? (cs.take (k.measure cs)) = some kind)
      (others : LexesTo (cs.drop (k.measure cs)) signs) :
      LexesTo cs ((kind, String.ofList (cs.take (k.measure cs))) :: signs)

/-- The first piece of a text is the lexeme that is found in front. -/
theorem pieces_of_first? {cs : List Char} {k : LexemeClass}
    (h : LexemeClass.first? cs = some k) :
    pieces cs = .lexeme k (cs.take (k.measure cs)) :: pieces (cs.drop (k.measure cs)) := by
  have language := LexemeClass.language_take (LexemeClass.measure_pos_of_first? h)
  cases cs with
  | nil => exact absurd List.take_nil (LexemeClass.ne_nil_of_language language)
  | cons c rest =>
    rw [pieces]
    split
    · rename_i found
      obtain rfl := Option.some.inj (h.symm.trans found)
      rfl
    · rename_i none
      rw [h] at none
      cases none

/-- What a text lexes to are the signs of its pieces. -/
theorem LexesTo.pieces_eq {cs : List Char} {signs : List Sign} (h : LexesTo cs signs) :
    (pieces cs).filterMap Piece.sign? = signs ∧ ∀ p ∈ pieces cs, p.isStray = false := by
  induction h with
  | nil =>
    rw [pieces]
    exact ⟨rfl, List.forall_mem_nil _⟩
  | ignored first hidden _ ih =>
    rw [pieces_of_first? first]
    refine ⟨?_, List.forall_mem_cons.mpr ⟨rfl, ih.2⟩⟩
    rw [List.filterMap_cons_none (by rw [Piece.sign?, hidden]; rfl), ih.1]
  | token first shown _ ih =>
    rw [pieces_of_first? first]
    refine ⟨?_, List.forall_mem_cons.mpr ⟨rfl, ih.2⟩⟩
    rw [List.filterMap_cons_some (by rw [Piece.sign?, shown]; rfl), ih.1]

/-- The signs of the tokens of a chain are those of its pieces. -/
theorem Placed.signs_of_chain (file : Option String) {start : Position} {ps : List Piece} :
    ((chain start ps).filterMap (token? file)).map Token.sign = ps.filterMap Piece.sign? := by
  induction ps generalizing start with
  | nil => rfl
  | cons p rest ih =>
    -- a piece gives a token exactly if it has a sign
    have same : (Placed.token? file ⟨p, start, start.advance p.text⟩).map Token.sign = p.sign? := by
      cases p with
      | stray => rfl
      | lexeme c text =>
        simp only [token?, Piece.sign?, Option.map_map]
        rfl
    rw [chain]
    cases sign : p.sign? with
    | none =>
      rw [sign, Option.map_eq_none_iff] at same
      rw [List.filterMap_cons_none same, List.filterMap_cons_none sign, ih]
    | some s =>
      rw [sign] at same
      obtain ⟨t, token, rfl⟩ := Option.map_eq_some_iff.mp same
      rw [List.filterMap_cons_some token, List.filterMap_cons_some sign, List.map_cons, ih]

/-- The tokens of a text that lexes are those that it lexes to, and there is no lexical error. -/
theorem LexesTo.scan {source : String} {signs : List Sign} (h : LexesTo source.toList signs)
    (file : Option String) :
    (Scan.ofSource source file).errors = [] ∧
      (Scan.ofSource source file).tokens.map Token.sign = signs := by
  obtain ⟨images, clean⟩ := h.pieces_eq
  refine ⟨List.filterMap_eq_nil_iff.mpr fun q hq => ?_, ?_⟩
  · have lexeme := clean q.piece (Placed.piece_of_mem_chain hq)
    cases error : q.error? file with
    | none => rfl
    | some e =>
      rw [(Placed.stray_of_error? error).1] at lexeme
      cases lexeme
  · exact (Placed.signs_of_chain file).trans images

/-! ## Separators -/

/-- What may stand between tokens: blanks, line ends, commas, byte order marks, and comments up to
    the end of their line. -/
inductive Separator : List Char → Prop where
  | nil : Separator []
  | mark {c : Char} {rest : List Char} (mark : c ∈ [' ', '\t', '\n', '\r', ',', '\uFEFF'])
      (others : Separator rest) : Separator (c :: rest)
  | comment {text rest : List Char} {c : Char} (within : ∀ d ∈ text, isWithinLine d = true)
      (ends : c = '\n' ∨ c = '\r') (others : Separator rest) :
      Separator ('#' :: (text ++ c :: rest))

/-- A separator begins with what is ignored. -/
theorem Separator.ends {gap : List Char} (h : Separator gap) {after : List Char}
    (some : gap ≠ []) : Ends (gap ++ after) := by
  have marks : [' ', '\t', '\n', '\r', ',', '\uFEFF'] ⊆ ignoredStarts := by decide
  intro c hc
  cases h with
  | nil => exact absurd rfl some
  | mark mark =>
    cases hc
    exact marks mark
  | comment =>
    cases hc
    decide

namespace LexesTo

variable {cs : List Char} {signs : List Sign}

/-- Behind a lexeme of an ignored class a text lexes to the same. -/
theorem behind {k : LexemeClass} (h : LexesTo cs signs) (found : LexemeClass.first? cs = some k)
    (hidden : ∀ text, k.tokenKind? text = none) : LexesTo (cs.drop (k.measure cs)) signs := by
  cases h with
  | nil =>
    rw [List.drop_nil]
    exact .nil
  | ignored first _ others =>
    obtain rfl := Option.some.inj (found.symm.trans first)
    exact others
  | token first shown _ =>
    obtain rfl := Option.some.inj (found.symm.trans first)
    rw [hidden] at shown
    cases shown

/-- No class begins like one that is ignored. -/
theorem alone_of_hidden {k : LexemeClass} (hidden : ∀ text, k.tokenKind? text = none)
    (d : LexemeClass) (alike : d.family = k.family) : d = k := by
  cases k with
  | mark | word | float | int | blockString | inlineString => cases hidden []
  | _ => cases d <;> first | rfl | cases alike

/-- A lexeme of an ignored class in front of a text is read away. -/
theorem skip (k : LexemeClass) {c : Char} (text : List Char) (h : LexesTo cs signs)
    (full : k.measure (c :: (text ++ cs)) = text.length + 1)
    (hidden : ∀ text, k.tokenKind? text = none) : LexesTo (c :: (text ++ cs)) signs := by
  have pos : 0 < k.measure (c :: (text ++ cs)) := by
    rw [full]
    exact Nat.succ_pos _
  refine .ignored (LexemeClass.first?_of_pos pos (alone_of_hidden hidden)) (hidden _) ?_
  rwa [full, List.drop_succ_cons, List.drop_left]

/-- A blank joins the blanks behind it. -/
theorem blank {c : Char} (h : LexesTo cs signs) (hc : isBlank c = true) :
    LexesTo (c :: cs) signs := by
  have measure : LexemeClass.blank.measure (c :: cs) = runLength isBlank cs + 1 := by
    show ((c :: cs).takeWhile isBlank).length = _
    rw [List.takeWhile_cons_of_pos hc]
    rfl
  have found : LexemeClass.first? (c :: cs) = some .blank :=
    LexemeClass.first?_of_pos (by rw [measure]; exact Nat.succ_pos _)
      (alone_of_hidden fun _ => rfl)
  refine .ignored found rfl ?_
  rw [measure, List.drop_succ_cons]
  cases cs with
  | nil =>
    rw [List.drop_nil]
    exact h
  | cons d cs =>
    -- a blank joins those behind it, or is one alone
    by_cases none : runLength isBlank (d :: cs) = 0
    · rwa [none]
    · have pos : 0 < LexemeClass.blank.measure (d :: cs) := Nat.pos_of_ne_zero none
      exact h.behind (LexemeClass.first?_of_pos pos (alone_of_hidden fun _ => rfl)) fun _ => rfl

/-- An LF is read away by itself. -/
theorem feed (h : LexesTo cs signs) : LexesTo ('\n' :: cs) signs :=
  skip .lineEnd [] h rfl fun _ => rfl

/-- A CR is read away, with the LF behind it if there is one. -/
theorem ret (h : LexesTo cs signs) : LexesTo ('\r' :: cs) signs := by
  by_cases pair : ∃ rest, cs = '\n' :: rest
  · obtain ⟨rest, rfl⟩ := pair
    have found : LexemeClass.first? ('\n' :: rest) = some .lineEnd :=
      LexemeClass.first?_of_pos Nat.one_pos (alone_of_hidden fun _ => rfl)
    have others : LexesTo rest signs := h.behind found fun _ => rfl
    exact skip .lineEnd ['\n'] others rfl fun _ => rfl
  · have one : lineEndLength ('\r' :: cs) = 1 := by
      unfold lineEndLength
      split
      · rename_i rest same
        exact absurd ⟨rest, (List.cons.inj same).2⟩ pair
      · rfl
      · rfl
      · rename_i noReturn _
        exact absurd rfl (noReturn cs)
    exact skip .lineEnd [] h one fun _ => rfl

/-- A character that may stand between tokens is read away. -/
theorem mark {c : Char} (h : LexesTo cs signs) (hc : c ∈ [' ', '\t', '\n', '\r', ',', '\uFEFF']) :
    LexesTo (c :: cs) signs := by
  simp only [List.mem_cons, List.not_mem_nil, or_false] at hc
  rcases hc with rfl | rfl | rfl | rfl | rfl | rfl
  · exact h.blank rfl
  · exact h.blank rfl
  · exact h.feed
  · exact h.ret
  · exact skip .comma [] h rfl fun _ => rfl
  · exact skip .byteOrderMark [] h rfl fun _ => rfl

/-- A comment is read away up to the end of its line. -/
theorem comment {text : List Char} (h : LexesTo cs signs)
    (within : ∀ d ∈ text, isWithinLine d = true) (stop : ∀ d ∈ cs.head?, isWithinLine d = false) :
    LexesTo ('#' :: (text ++ cs)) signs := by
  have full : LexemeClass.comment.measure ('#' :: (text ++ cs)) = text.length + 1 := by
    show 1 + runLength isWithinLine (text ++ cs) = _
    rw [runLength_append within stop, Nat.add_comm]
  exact skip .comment text h full fun _ => rfl

/-- A token is read in front of what is ignored. -/
theorem shown {k : LexemeClass} {text after : List Char} {kind : TokenKind}
    (h : LexesTo after signs) (language : k.Language text) (shown : k.tokenKind? text = some kind)
    (ends : Ends after) : LexesTo (text ++ after) ((kind, String.ofList text) :: signs) := by
  have isSome : (k.tokenKind? text).isSome = true := by
    rw [shown]
    rfl
  have found := LexemeClass.first?_append language isSome ends
  have full := LexemeClass.measure_append language isSome ends
  have taken : (text ++ after).take (k.measure (text ++ after)) = text := by
    rw [full, List.take_left]
  have others : LexesTo ((text ++ after).drop (k.measure (text ++ after))) signs := by
    rwa [full, List.drop_left]
  have whole := LexesTo.token found (by rwa [taken]) others
  rwa [taken] at whole

end LexesTo

/-- A separator is read away in front of any text. -/
theorem Separator.lexesTo {gap after : List Char} {signs : List Sign} (h : Separator gap)
    (behind : LexesTo after signs) : LexesTo (gap ++ after) signs := by
  induction h with
  | nil => exact behind
  | mark mark _ ih => exact ih.mark mark
  | @comment text rest c within ends _ ih =>
    have line : LexesTo (c :: (rest ++ after)) signs := by
      rcases ends with rfl | rfl
      · exact ih.feed
      · exact ih.ret
    have stop : ∀ d ∈ (c :: (rest ++ after)).head?, isWithinLine d = false := by
      intro d hd
      cases hd
      rcases ends with rfl | rfl <;> rfl
    rw [List.cons_append, List.append_assoc]
    exact line.comment within stop

/-! ## Tokens that are joined -/

/-- The texts that join tokens by separators: behind each token stands one, and only the last may be
    empty. -/
inductive Joins : List Char → List Token → Prop where
  | nil : Joins [] []
  | last {gap : List Char} (t : Token) (separator : Separator gap) :
      Joins (t.text.toList ++ gap) [t]
  | cons {gap text : List Char} {tokens : List Token} (t : Token) (separator : Separator gap)
      (apart : gap ≠ []) (others : Joins text tokens) :
      Joins (t.text.toList ++ (gap ++ text)) (t :: tokens)

/-- A token of a text is of a class that has its text and its kind. -/
theorem exists_language_of_mem_ofSource {source : String} {file : Option String} {t : Token}
    (h : t ∈ (Scan.ofSource source file).tokens) :
    ∃ k : LexemeClass, k.Language t.text.toList ∧ k.tokenKind? t.text.toList = some t.kind := by
  obtain ⟨q, hq, ht⟩ := List.mem_filterMap.mp h
  have piece := Placed.piece_of_mem_chain hq
  unfold Placed.token? at ht
  split at ht
  · rename_i k text same
    rw [same] at piece
    obtain ⟨kind, shown, rfl⟩ := Option.map_eq_some_iff.mp ht
    refine ⟨k, ?_, ?_⟩
    · rw [String.toList_ofList]
      exact LexemeClass.language_of_mem_pieces piece
    · rw [String.toList_ofList]
      exact shown
  · cases ht

/-- Tokens of a text that are joined by separators are read again. -/
theorem lexesTo_of_joins {text : List Char} {tokens : List Token} (joins : Joins text tokens)
    (known : ∀ t ∈ tokens, ∃ k : LexemeClass,
      k.Language t.text.toList ∧ k.tokenKind? t.text.toList = some t.kind) :
    LexesTo text (tokens.map Token.sign) := by
  induction joins with
  | nil => exact .nil
  | @last gap t separator =>
    -- behind the last token only what separates is left
    obtain ⟨k, language, shown⟩ := known t (List.mem_singleton_self t)
    have behind : LexesTo (gap ++ []) [] := separator.lexesTo .nil
    rw [List.append_nil] at behind
    have ends : Ends gap := by
      by_cases none : gap = []
      · rw [none]
        exact fun _ => nofun
      · have ends : Ends (gap ++ []) := separator.ends none
        rwa [List.append_nil] at ends
    have whole := behind.shown language shown ends
    rwa [String.ofList_toList] at whole
  | @cons gap text tokens t separator apart _ ih =>
    -- a token, what separates it from the next, and the others
    obtain ⟨k, language, shown⟩ := known t List.mem_cons_self
    have behind := separator.lexesTo (ih fun u hu => known u (List.mem_cons_of_mem _ hu))
    have whole := behind.shown language shown (separator.ends apart)
    rwa [String.ofList_toList] at whole

end GraphQL
