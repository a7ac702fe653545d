/-
  A snippet shows the line on which a mistake stands.

  Two counts of lines have to agree.  The place of a mistake is counted along the text, and there a
  line ends at LF, at CR and at CR LF.  The snippet looks its line up by number among the lines that
  are shown, and these end at LF and at CR LF only.  So the line is the right one where every CR has
  an LF behind it, and not only there: what comes behind the LF that ends the line does not matter
  (`shownLines_lineEnds`).  A CR that stands alone before that makes the number too great, and then
  the snippet shows a line further down, or none.

  That there is a line to be shown is a fact about tokens.  A mistake stands where a token begins,
  or where the last one ends, and a token neither begins nor ends with a line end (`begins_within`,
  `ends_within`); so its line is not empty.  A text without tokens is no mistake for the standard
  grammar.

  A line that is to be shown breaks the long form off if the mistake stands too far to the right on
  it; so this is said beside what is shown.  There are such mistakes: a closing brace behind enough
  blanks is one (`not_fits_bracedLine`).
-/
import GraphQL.Proofs.Displacement
import GraphQL.Proofs.Independence
import GraphQL.Proofs.Layouts
import GraphQL.Proofs.MistakeOrder
import GraphQL.Proofs.Relexing
import GraphQL.Reading

namespace GraphQL

/-! ## Two counts of lines -/

/-- Whether each CR of a text has an LF behind it. -/
def returnsPaired : List Char → Bool
  | [] => true
  | c :: rest => (c != '\r' || rest.head? == some '\n') && returnsPaired rest

/-- A text up to its first LF, with it. -/
def throughFeed : List Char → List Char
  | [] => []
  | c :: rest => if c = '\n' then [c] else c :: throughFeed rest

/-- A text that begins with an LF up to its first LF begins with it. -/
theorem begins_of_throughFeed {cs later : List Char} (h : throughFeed cs = '\n' :: later) :
    ∃ others, cs = '\n' :: others := by
  cases cs with
  | nil => cases h
  | cons c rest =>
    unfold throughFeed at h
    split at h
    · rename_i feed
      exact ⟨rest, by rw [feed]⟩
    · exact ⟨rest, by rw [(List.cons.inj h).1]⟩

/-- A text whose CRs are paired begins with an LF, with a CR and its LF, or within a line. -/
theorem first_of_paired {c : Char} {rest : List Char} (paired : returnsPaired (c :: rest) = true) :
    c = '\n' ∨ (c = '\r' ∧ ∃ later, rest = '\n' :: later) ∨ isWithinLine c = true := by
  by_cases feed : c = '\n'
  · exact .inl feed
  by_cases ret : c = '\r'
  · subst ret
    have front : (rest.head? == some '\n') = true := (Bool.and_eq_true_iff.mp paired).1
    exact .inr (.inl ⟨rfl, List.head?_eq_some_iff.mp (eq_of_beq front)⟩)
  · have within : isWithinLine c = true := by simp [isWithinLine, feed, ret]
    exact .inr (.inr within)

theorem lineEnds_feed (cs : List Char) : lineEnds ('\n' :: cs) = lineEnds cs + 1 := by
  simp [lineEnds, Nat.add_comm]

theorem lineEnds_pair (cs : List Char) : lineEnds ('\r' :: '\n' :: cs) = lineEnds ('\n' :: cs) := by
  simp [lineEnds]

/-- A character within a line ends none. -/
theorem lineEnds_within {c : Char} (cs : List Char) (within : isWithinLine c = true) :
    lineEnds (c :: cs) = lineEnds cs := by
  obtain ⟨noFeed, noReturn⟩ : c ≠ '\n' ∧ c ≠ '\r' := by simpa [isWithinLine] using within
  simp [lineEnds, noFeed, noReturn]

/-- A character within a line is put in front of the first line that is shown. -/
theorem shownLines_cons {c : Char} (rest : List Char) (within : isWithinLine c = true) :
    shownLines (c :: rest) =
      match shownLines rest with
      | [] => [[c]]
      | line :: others => (c :: line) :: others := by
  obtain ⟨noFeed, noReturn⟩ : c ≠ '\n' ∧ c ≠ '\r' := by simpa [isWithinLine] using within
  exact shownLines.eq_4 c rest noFeed fun _ ret _ => noReturn ret

/-- The first line that is shown goes up to the first line end. -/
theorem head?_shownLines {cs : List Char} (nonempty : cs ≠ [])
    (paired : returnsPaired (throughFeed cs) = true) :
    (shownLines cs).head? = some (cs.takeWhile isWithinLine) := by
  induction cs with
  | nil => exact absurd rfl nonempty
  | cons c rest ih =>
    by_cases feed : c = '\n'
    · -- the first line is empty
      subst feed
      rfl
    rw [throughFeed, if_neg feed] at paired
    -- a CR that stands before an LF ends the first line as well, and a lone one is excluded
    rcases first_of_paired paired with ends | ⟨rfl, later, pair⟩ | within
    · exact absurd ends feed
    · obtain ⟨others, rfl⟩ := begins_of_throughFeed pair
      rfl
    · rw [shownLines_cons rest within, List.takeWhile_cons_of_pos within]
      -- a character of the first line stands before the first line of what follows, if any follows
      by_cases last : rest = []
      · subst last
        rfl
      · have first := ih last (Bool.and_eq_true_iff.mp paired).2
        obtain ⟨others, same⟩ := List.head?_eq_some_iff.mp first
        rw [same]
        rfl

/-- A character within a line changes nothing in the lines below the first. -/
theorem getElem?_shownLines_cons {c : Char} {rest line : List Char} {n : Nat}
    (within : isWithinLine c = true) (below : n ≠ 0) (shown : (shownLines rest)[n]? = some line) :
    (shownLines (c :: rest))[n]? = some line := by
  obtain ⟨n, rfl⟩ := Nat.exists_eq_succ_of_ne_zero below
  rw [shownLines_cons rest within]
  cases same : shownLines rest with
  | nil =>
    rw [same] at shown
    cases shown
  | cons first others =>
    rw [same] at shown
    exact shown

section Lines

variable {front back : List Char}

/-- A character within a line is shown on the line of the place, if that is the first one, and else
    leaves it as it is. -/
theorem shownLines_lineEnds_cons {c : Char} (within : isWithinLine c = true)
    (nonempty : lastLine (c :: front) ≠ [] ∨ back ≠ [])
    (shown : lastLine front ≠ [] ∨ back ≠ [] →
      (shownLines (front ++ back))[lineEnds front]?
        = some (lastLine front ++ back.takeWhile isWithinLine)) :
    (shownLines (c :: (front ++ back)))[lineEnds (c :: front)]?
      = some (lastLine (c :: front) ++ back.takeWhile isWithinLine) := by
  rw [lastLine_cons_of_within front within] at nonempty ⊢
  rw [lineEnds_within front within]
  by_cases first : lineEnds front = 0
  · -- the place is on the first line, which gets longer by the character
    have whole : lastLine front = front := lastLine_of_forall (lineEnds_eq_zero_iff.mp first)
    rw [if_pos first, first, shownLines_cons _ within]
    rw [first, whole, ← List.head?_eq_getElem?] at shown
    by_cases last : front ≠ [] ∨ back ≠ []
    · obtain ⟨lines, same⟩ := List.head?_eq_some_iff.mp (shown last)
      rw [same]
      rfl
    · obtain ⟨rfl, rfl⟩ : front = [] ∧ back = [] := by simpa using last
      rfl
  · -- the place is further below, where nothing changes
    rw [if_neg first] at nonempty ⊢
    exact getElem?_shownLines_cons within first (shown nonempty)

/-- The line of a place is shown under the number of line ends before it, if the CRs are paired up
    to the end of that line.  Induction on the text before the place. -/
theorem shownLines_lineEnds (joint : Joint front back) (nonempty : lastLine front ≠ [] ∨ back ≠ [])
    (paired : returnsPaired (front ++ throughFeed back) = true) :
    (shownLines (front ++ back))[lineEnds front]?
      = some (lastLine front ++ back.takeWhile isWithinLine) := by
  induction front with
  | nil =>
    have first := head?_shownLines (nonempty.resolve_left fun h => h rfl) paired
    rwa [List.head?_eq_getElem?] at first
  | cons c front ih =>
    have others : returnsPaired (front ++ throughFeed back) = true :=
      (Bool.and_eq_true_iff.mp paired).2
    rcases first_of_paired paired with rfl | ⟨rfl, more, pair⟩ | within
    · rw [lastLine_cons_of_end front (by decide)] at nonempty ⊢
      rw [lineEnds_feed]
      exact ih joint.tail nonempty others
    · -- the LF that pairs the CR stands before the place too, and the two end one line
      have before : ∃ later, front = '\n' :: later := by
        cases front with
        | nil =>
          obtain ⟨later, rfl⟩ := begins_of_throughFeed pair
          exact absurd ⟨rfl, rfl⟩ joint
        | cons d later => exact ⟨later, by rw [(List.cons.inj pair).1]⟩
      obtain ⟨later, rfl⟩ := before
      rw [lastLine_cons_of_end _ (by decide)] at nonempty ⊢
      rw [lineEnds_pair]
      exact ih joint.tail nonempty others
    · exact shownLines_lineEnds_cons within nonempty fun below => ih joint.tail below others

end Lines

/-! ## Tokens within lines -/

/-- A character with a property that no line end has stands within a line. -/
theorem within_of_holds {p : Char → Bool} (feed : p '\n' = false) (ret : p '\r' = false) {c : Char}
    (holds : p c = true) : isWithinLine c = true := by
  have noFeed : c ≠ '\n' := by
    rintro rfl
    rw [feed] at holds
    cases holds
  have noReturn : c ≠ '\r' := by
    rintro rfl
    rw [ret] at holds
    cases holds
  simp [isWithinLine, noFeed, noReturn]

/-- A text whose last character has such a property ends within a line. -/
theorem EndsIn.within {p : Char → Bool} {cs : List Char} (h : EndsIn p cs) (feed : p '\n' = false)
    (ret : p '\r' = false) : EndsIn isWithinLine cs := by
  obtain ⟨c, last, holds⟩ := h
  exact ⟨c, last, within_of_holds feed ret holds⟩

/-- A text that ends within a line has something in its last line. -/
theorem lastLine_ne_nil {cs : List Char} (h : EndsIn isWithinLine cs) : lastLine cs ≠ [] := by
  obtain ⟨c, last, within⟩ := h
  obtain ⟨init, rfl⟩ := List.getLast?_eq_some_iff.mp last
  unfold lastLine
  rw [List.reverse_append, List.reverse_singleton, List.singleton_append,
    List.takeWhile_cons_of_pos within]
  simp

namespace LexemeClass

/-- A character that ends a line leads to that class alone. -/
theorem lead_of_end {c : Char} (h : isWithinLine c = false) : lead c = some .lineEnd := by
  have either : c = '\n' ∨ c = '\r' := by
    simp only [isWithinLine, Bool.and_eq_false_iff, bne_eq_false_iff_eq] at h
    exact h
  rcases either with rfl | rfl <;> decide

/-- A token begins within a line. -/
theorem begins_within {k : LexemeClass} {text : List Char} (h : k.Language text)
    (shown : (k.tokenKind? text).isSome = true) : ∀ c ∈ text.head?, isWithinLine c = true := by
  intro c first
  obtain ⟨rest, rfl⟩ := List.head?_eq_some_iff.mp first
  have ends : Ends [] := fun _ none => nomatch none
  have full := measure_append h shown ends
  rw [List.append_nil] at full
  have leads : lead c = some k.family := lead_eq (by rw [full]; exact Nat.succ_pos _)
  refine eq_true_of_ne_false fun ends => ?_
  rw [lead_of_end ends] at leads
  cases k <;> cases leads
  cases shown

/-- A token ends within a line. -/
theorem ends_within {k : LexemeClass} {text : List Char} (h : k.Language text)
    (shown : (k.tokenKind? text).isSome = true) : EndsIn isWithinLine text := by
  cases k with
  | blank | byteOrderMark | lineEnd | comment | comma => cases shown
  | mark p =>
    rw [show text = _ from h]
    cases p <;> exact ⟨_, rfl, by decide⟩
  | word =>
    obtain ⟨first, rest, rfl, start, parts⟩ := h
    have part : isNamePart first = true := Bool.or_eq_true_iff.mpr (.inl start)
    have all : ∀ c ∈ first :: rest, isNamePart c = true := List.forall_mem_cons.mpr ⟨part, parts⟩
    exact (EndsIn.of_forall (List.cons_ne_nil _ _) all).within (by decide) (by decide)
  | float => exact (Floating.ends h).within (by decide) (by decide)
  | int => exact (Whole.ends h).within (by decide) (by decide)
  | blockString =>
    obtain ⟨body, rfl, inside⟩ := h
    exact (inside.ends.append ['"', '"', '"']).within (by decide) (by decide)
  | inlineString =>
    obtain ⟨body, rfl, inside⟩ := h
    exact (inside.ends.cons '"').within (by decide) (by decide)

end LexemeClass

/-! ## Places of mistakes -/

/-- A place on a line that is not empty: not within a line end, and behind or in front of a
    character of the text. -/
structure Position.OnLine (p : Position) (front back : List Char) : Prop where
  place : p = .behind front
  joint : Joint front back
  nonempty : lastLine front ≠ [] ∨ back ≠ []

/-- A token of a text begins and ends on lines that are not empty. -/
theorem onLine_of_mem_ofSource {source : String} {file : Option String} {t : Token}
    (h : t ∈ (Scan.ofSource source file).tokens) :
    (∃ front back, source.toList = front ++ back ∧ t.span.start.OnLine front back) ∧
      ∃ front back, source.toList = front ++ back ∧ t.span.stop.OnLine front back := by
  obtain ⟨q, hq, token⟩ := List.mem_filterMap.mp h
  obtain ⟨left, right, split, start, stop⟩ := Placed.exists_split hq
  rw [Placed.span_of_token? token]
  have piece := Placed.piece_of_mem_chain hq
  unfold Placed.token? at token
  split at token
  · rename_i k text same
    obtain ⟨kind, shown, -⟩ := Option.map_eq_some_iff.mp token
    have shown : (k.tokenKind? text).isSome = true := by rw [shown]; rfl
    rw [same] at piece split stop
    have language := LexemeClass.language_of_mem_pieces piece
    have first := LexemeClass.begins_within language shown
    have last := LexemeClass.ends_within language shown
    have nonempty := LexemeClass.ne_nil_of_language language
    -- a token begins within a line, so its first character is not the LF of a CRLF
    have joint : Joint left (text ++ right) := by
      rintro ⟨-, feed⟩
      obtain ⟨c, rest, rfl⟩ := List.exists_cons_of_ne_nil nonempty
      have within := first c rfl
      rw [Option.some.inj feed] at within
      cases within
    constructor
    · -- the begin: the first character stands behind it on its line
      refine ⟨left, text ++ right, ?_, start, joint, .inr ?_⟩
      · rw [split, List.append_assoc]
        rfl
      · exact List.append_ne_nil_of_left_ne_nil nonempty right
    · -- the end: the last character stands before it on its line
      have ends := last.append left
      exact ⟨left ++ text, right, split, stop, ends.joint (by decide) right,
        .inl (lastLine_ne_nil ends)⟩
  · cases token

/-- No token is put back on the way. -/
theorem Marks.suffix {endToken : Token} {rest rest' : List Token} {errors : List SyntaxError}
    (h : Marks endToken rest errors rest') : rest' <:+ rest := by
  induction h with
  | nil further => exact further
  | cons further _ _ ih => exact ih.trans further

/-- Mistakes that are recorded one after the other are recorded at tokens that are left, or at the
    end. -/
theorem Marks.exists_token {endToken : Token} {rest rest' : List Token} {errors : List SyntaxError}
    (h : Marks endToken rest errors rest') {e : SyntaxError} (he : e ∈ errors) :
    ∃ t, (t ∈ rest ∨ t = endToken) ∧ e.At t := by
  induction h with
  | nil => cases he
  | @cons rest mid rest' first more further found _ ih =>
    rcases List.mem_cons.mp he with rfl | he
    · refine ⟨_, ?_, found⟩
      cases mid with
      | nil => exact .inr rfl
      | cons t mid => exact .inl (further.subset List.mem_cons_self)
    · obtain ⟨t, place, found⟩ := ih he
      exact ⟨t, place.imp_left fun inside => further.subset inside, found⟩

/-- Each mistake of a parse is recorded at a token or at the end of the input. -/
theorem Grammar.exists_token {d : Draft} {g : Grammar} (finished : d.finish = .ok g) {entry : Rule}
    {tokens : List Token} {mode : Mode} {e : SyntaxError}
    (he : e ∈ (g.parse entry tokens mode).errors) :
    ∃ t, (t ∈ tokens ∨ t = .endOf tokens) ∧ e.At t := by
  obtain ⟨s, ending, entered, -, hend⟩ := parse_enter g entry tokens mode
  obtain ⟨more, added, marks, -⟩ :=
    (run_of_enter entered).records_outermost (production_of_finish finished)
  have recorded : e ∈ s.errors.toList → ∃ t, (t ∈ tokens ∨ t = .endOf tokens) ∧ e.At t := by
    intro he
    have he : e ∈ more := by rwa [added] at he
    exact marks.exists_token he
  rcases hend with ⟨found, rest, -, hrest, herrors⟩ | ⟨-, herrors⟩
  · rw [herrors] at he
    rcases List.mem_append.mp he with he | he
    · exact recorded he
    · -- what is left behind the entry rule is some of the tokens
      obtain rfl := List.mem_singleton.mp he
      have further : s.rest <:+ tokens := marks.suffix
      refine ⟨found, .inl (further.subset ?_), rfl, rfl⟩
      rw [hrest]
      exact List.mem_cons_self
  · rw [herrors] at he
    exact recorded he

/-- A mistake in a text with tokens stands on a line that is not empty. -/
theorem Grammar.exists_onLine {d : Draft} {g : Grammar} (finished : d.finish = .ok g)
    {source : String} {file : Option String} {entry : Rule} {mode : Mode}
    (tokens : (Scan.ofSource source file).tokens ≠ []) {e : SyntaxError}
    (he : e ∈ (g.readSource source file entry mode).errors) :
    ∃ front back, source.toList = front ++ back ∧ e.span.start.OnLine front back := by
  obtain ⟨t, place, span, -⟩ := g.exists_token finished he
  rw [span]
  rcases place with inside | rfl
  · exact (onLine_of_mem_ofSource inside).1
  · unfold Token.endOf
    have last := List.getLast?_eq_some_getLast tokens
    rw [last]
    exact (onLine_of_mem_ofSource (List.getLast_mem tokens)).2

/-- The mistakes of a reading are those of the parse of its tokens. -/
theorem errors_readSource (g : Grammar) (source : String) (file : Option String) (entry : Rule)
    (mode : Mode) :
    (g.readSource source file entry mode).errors
      = (g.parse entry (Scan.ofSource source file).tokens mode).errors := rfl

/-- A document of no tokens is in order. -/
theorem Standard.errors_nothing (mode : Mode) : (grammar.parse .document [] mode).errors = [] := by
  cases mode with
  | tree => rw [parse_nothing]
  | recognize => rw [Grammar.parse_recognize, parse_nothing]

/-- A text is split in one way behind some number of bytes. -/
theorem eq_of_utf8Length_eq {a b c d : List Char} (same : a ++ b = c ++ d)
    (length : utf8Length a = utf8Length c) : a = c ∧ b = d := by
  have first := ByteSpan.splitAfter_append a b
  rw [length, same, ByteSpan.splitAfter_append] at first
  obtain ⟨rfl, rfl⟩ := Prod.mk.inj (Option.some.inj first)
  exact ⟨rfl, rfl⟩

/-! ## Snippets -/

namespace Diagnostic

/-- Whether the long form of a mistake shows a line of a source under a number, of which one part
    stands before the mistake and one from there on.  The carets begin below the second part: the
    margin before them is as wide as that with the number. -/
def Shows (d : Diagnostic) (source : String) (number : Nat) (before behind : List Char) : Prop :=
  ∃ margin indent carets, margin = indent + (toString number).length ∧ 0 < carets ∧
    d.detailed (some source) = .ok (String.join ((
      ["error: " ++ d.message, "  --> " ++ d.place,
        row margin ' ' ++ " |",
        row indent ' ' ++ toString number ++ " | " ++ String.ofList (before ++ behind),
        row margin ' ' ++ " | " ++ row before.length ' ' ++ row carets '^'] ++ d.note).map
          (· ++ "\n")))

section Place

variable {d : Diagnostic} {source : String} {front back : List Char}

/-- The line that is shown is the one with the number of the line of the place. -/
theorem shows_of_getElem? (place : d.span.start = .behind front)
    (shown : (shownLines source.toList)[lineEnds front]? = some (lastLine front ++ back))
    (narrow : (lastLine front).length ≤ widestPadding) :
    d.Shows source (lineEnds front + 1) (lastLine front) back := by
  have line : d.span.start.line = lineEnds front := by rw [place]; rfl
  have column : d.span.start.column = (lastLine front).length := by rw [place]; rfl
  let number := toString (lineEnds front + 1)
  refine ⟨max 2 number.length, max 2 number.length - number.length,
    d.underlined (lastLine front ++ back), ?_, ?_, ?_⟩
  · show max 2 number.length = max 2 number.length - number.length + number.length
    omega
  · exact Nat.lt_of_lt_of_le Nat.one_pos (Nat.le_max_left ..)
  · unfold detailed snippet
    rw [Option.bind_some, line, shown, column, padding_of_le narrow]
    rfl

/-- If the place is too far to the right on a line that is to be shown, nothing is laid out. -/
theorem detailed_of_getElem? {shownLine : List Char} (place : d.span.start = .behind front)
    (shown : (shownLines source.toList)[lineEnds front]? = some shownLine)
    (wide : widestPadding < (lastLine front).length) :
    d.detailed (some source) = .error .tooWide := by
  have line : d.span.start.line = lineEnds front := by rw [place]; rfl
  have column : d.span.start.column = (lastLine front).length := by rw [place]; rfl
  unfold detailed snippet
  rw [Option.bind_some, line, shown, column, padding_of_lt wide]
  rfl

end Place

/-- Without a line of that number no line is shown. -/
theorem not_shows_of_getElem? {d : Diagnostic} {source : String} {number : Nat}
    {before behind : List Char} (none : (shownLines source.toList)[d.span.start.line]? = none) :
    ¬ d.Shows source number before behind := by
  rintro ⟨margin, indent, carets, -, -, text⟩
  unfold detailed at text
  rw [Option.bind_some, none] at text
  -- what is shown of the source makes the text longer
  have longer := congrArg String.length (Except.ok.inj text)
  have bar : (" |" : String).length = 2 := rfl
  simp only [List.cons_append, List.nil_append, List.map_cons, String.join_cons,
    String.length_append, bar] at longer
  omega

end Diagnostic

/-- The snippet of a mistake shows its line.  A place in a text lies on the line that goes from the
    last line end before it, be it LF, CR or CR LF, to the next one behind it.  Every mistake of a
    text has such a place.  If each CR up to the end of that line has an LF behind it, the snippet
    shows the line, with its number, and the carets begin under the place; but if the place is
    further to the right than text can be padded, the long form breaks off. -/
theorem snippet_shows_line (source : String) (file : Option String) (mode : Mode) {e : SyntaxError}
    (he : e ∈ (Standard.grammar.readSource source file .document mode).errors) :
    (∃ front back, source.toList = front ++ back ∧ utf8Length front = e.span.start.offset) ∧
    ∀ front back, source.toList = front ++ back → utf8Length front = e.span.start.offset →
      returnsPaired (front ++ throughFeed back) = true →
      ((lastLine front).length ≤ widestPadding →
        e.diagnostic.Shows source (lineEnds front + 1) (lastLine front)
          (back.takeWhile isWithinLine)) ∧
      (widestPadding < (lastLine front).length →
        e.diagnostic.detailed (some source) = .error .tooWide) := by
  -- a text without tokens has no mistakes
  have tokens : (Scan.ofSource source file).tokens ≠ [] := by
    intro none
    rw [errors_readSource, none, Standard.errors_nothing] at he
    cases he
  obtain ⟨front, back, split, onLine⟩ :=
    Standard.grammar.exists_onLine Standard.finish_eq tokens he
  have offset : utf8Length front = e.span.start.offset := by rw [onLine.place]; rfl
  refine ⟨⟨front, back, split, offset⟩, ?_⟩
  intro front' back' split' offset' paired
  -- the place of a mistake is where its byte offset says, so `front` and `back` are its halves
  obtain ⟨rfl, rfl⟩ := eq_of_utf8Length_eq (split'.symm.trans split) (offset'.trans offset.symm)
  have shown := shownLines_lineEnds onLine.joint onLine.nonempty paired
  rw [← split] at shown
  exact ⟨Diagnostic.shows_of_getElem? onLine.place shown,
    Diagnostic.detailed_of_getElem? onLine.place shown⟩

/-- A mistake on the third line of a text whose lines end with CR LF, LF and LF; the CR at its end
    stands behind that line. -/
def mixedSource : String := "\x7b\r\n a\n b(c 1)\n\x7d\r"

/-- The mistake is shown on the third line. -/
theorem third_line_shown :
    ∃ e ∈ (Standard.grammar.readSource mixedSource none .document .recognize).errors,
      e.diagnostic.Shows mixedSource 3 " b(c ".toList "1)".toList := by
  obtain ⟨e, only, offset⟩ := List.map_eq_singleton_iff.mp
    (show (Standard.grammar.readSource mixedSource none .document .recognize).errors.map
      (fun e => e.span.start.offset) = [11] by decide +kernel)
  have he : e ∈ (Standard.grammar.readSource mixedSource none .document .recognize).errors := by
    rw [only]
    exact List.mem_singleton_self e
  refine ⟨e, he, ?_⟩
  have here := (snippet_shows_line mixedSource none .recognize he).2 "\x7b\r\n a\n b(c ".toList
    "1)\n\x7d\r".toList (by decide +kernel) (by rw [offset]; decide +kernel) (by decide +kernel)
  exact here.1 (by decide +kernel)

/-- A mistake behind a CR that stands alone. -/
def returnSource : String := "\x7b\r a(b 1)\x7d"

/-- The mistake stands on the second line, and nothing is shown of it: there the CR ends no line,
    and the text has no second one. -/
theorem second_line_not_shown :
    ∃ e ∈ (Standard.grammar.readSource returnSource none .document .recognize).errors,
      ∃ front back, returnSource.toList = front ++ back ∧
        utf8Length front = e.span.start.offset ∧
        ¬ e.diagnostic.Shows returnSource (lineEnds front + 1) (lastLine front)
          (back.takeWhile isWithinLine) := by
  obtain ⟨e, only, same⟩ := List.map_eq_singleton_iff.mp
    (show (Standard.grammar.readSource returnSource none .document .recognize).errors.map
      (fun e => (e.span.start.offset, e.span.start.line)) = [(7, 1)] by decide +kernel)
  have he : e ∈ (Standard.grammar.readSource returnSource none .document .recognize).errors := by
    rw [only]
    exact List.mem_singleton_self e
  obtain ⟨offset, line⟩ := Prod.mk.inj same
  refine ⟨e, he, "\x7b\r a(b ".toList, "1)\x7d".toList, by decide +kernel, ?_, ?_⟩
  · rw [offset]
    decide +kernel
  · apply Diagnostic.not_shows_of_getElem?
    show (shownLines returnSource.toList)[e.span.start.line]? = none
    rw [line]
    decide +kernel

/-! ## A mistake behind blanks -/

/-- A line of blanks with a closing brace at its end. -/
def bracedLine (blanks : Nat) : String := String.ofList (List.replicate blanks ' ' ++ ['}'])

/-- The blanks are one piece, and the brace is another. -/
theorem pieces_bracedLine (n : Nat) :
    pieces (List.replicate (n + 1) ' ' ++ ['}'])
      = [.lexeme .blank (List.replicate (n + 1) ' '), .lexeme (.mark .rightBrace) ['}']] := by
  have blank : ∀ c ∈ List.replicate (n + 1) ' ', isBlank c = true := by
    intro c hc
    rw [List.eq_of_mem_replicate hc]
    rfl
  have measure : LexemeClass.blank.measure (List.replicate (n + 1) ' ' ++ ['}']) = n + 1 := by
    show (List.takeWhile isBlank _).length = n + 1
    rw [List.takeWhile_append_of_pos blank, List.length_append, List.length_replicate]
    rfl
  have pos : 0 < LexemeClass.blank.measure (List.replicate (n + 1) ' ' ++ ['}']) := by
    rw [measure]
    exact Nat.succ_pos n
  have found : LexemeClass.first? (List.replicate (n + 1) ' ' ++ ['}']) = some .blank :=
    LexemeClass.first?_of_pos pos (LexesTo.alone_of_hidden fun _ => rfl)
  have brace : pieces ['}'] = [.lexeme (.mark .rightBrace) ['}']] := by cbv
  rw [pieces_of_first? found, measure, List.take_left' List.length_replicate,
    List.drop_left' List.length_replicate, brace]

/-- The brace is the only token, and it stands on the first line behind the blanks. -/
theorem tokens_bracedLine (n : Nat) (file : Option String) :
    ∃ start stop : Position,
      (Scan.ofSource (bracedLine (n + 1)) file).tokens
        = [{ kind := .punctuator .rightBrace, text := "\x7d", span := ⟨start, stop, file⟩ }] ∧
      (start.line = 0 ∧ start.column = n + 1) ∧ stop.line = 0 ∧ stop.column = n + 2 := by
  -- all the blanks stand on the first line, so the brace is in the column of their number
  have within : ∀ c ∈ List.replicate (n + 1) ' ', isWithinLine c = true := by
    intro c hc
    rw [List.eq_of_mem_replicate hc]
    rfl
  have line : lineEnds (List.replicate (n + 1) ' ') = 0 := lineEnds_eq_zero_iff.mpr within
  have column : (lastLine (List.replicate (n + 1) ' ')).length = n + 1 := by
    rw [lastLine_of_forall within, List.length_replicate]
  refine ⟨.behind (List.replicate (n + 1) ' '),
    (Position.behind (List.replicate (n + 1) ' ')).nextColumn '}', ?_, ⟨line, column⟩, line, ?_⟩
  · rw [Scan.ofSource, bracedLine, String.toList_ofList, pieces_bracedLine]
    simp only [Placed.chain, Piece.text, Position.advance_start]
    rfl
  · exact congrArg (· + 1) column

/-- A mistake at the brace, or behind it, does not fit if there are more blanks than text can be
    padded to. -/
theorem not_fits_of_bracedLine {n : Nat} (far : widestPadding ≤ n) {d : Diagnostic}
    (line : d.span.start.line = 0) (column : n + 1 ≤ d.span.start.column) :
    ¬ d.Fits (bracedLine (n + 1)) := by
  have shown : 0 < (shownLines (bracedLine (n + 1)).toList).length := by
    rw [bracedLine, String.toList_ofList, List.replicate_succ, List.cons_append,
      shownLines_cons _ (by decide)]
    split <;> exact Nat.succ_pos _
  intro fits
  rw [Diagnostic.Fits, line] at fits
  have narrow := fits shown
  omega

/-- A closing brace by itself is one mistake, wherever it stands. -/
theorem Standard.length_errors_brace {tokens : List Token} {brace : Token}
    (only : tokens = [brace]) (sign : brace.sign = Punctuator.rightBrace.sign) :
    (grammar.parse .document tokens).errors.length = 1 := by
  let placeless : Token := { kind := .punctuator .rightBrace, text := "\x7d" }
  have one : (grammar.parse .document [placeless]).errors.length = 1 := by decide +kernel
  have signs : tokens.map Token.sign = [placeless].map Token.sign := by
    rw [only, List.map_singleton, sign]
    rfl
  have lengths := congrArg (fun p => p.errors.length) (parse_alike grammar .document .tree signs)
  simpa only [Grammar.Parse.unplaced, List.length_map, one] using lengths

/-- Behind more blanks than text can be padded to a closing brace is a mistake that does not fit. -/
theorem not_fits_bracedLine {n : Nat} (far : widestPadding ≤ n) (file : Option String) :
    0 < (Standard.grammar.readSource (bracedLine (n + 1)) file).errorCount ∧
      ¬ (Standard.grammar.readSource (bracedLine (n + 1)) file).Fits (bracedLine (n + 1))
        .detailed := by
  obtain ⟨start, stop, tokens, ⟨line, column⟩, stopLine, stopColumn⟩ := tokens_bracedLine n file
  have count := Standard.length_errors_brace tokens rfl
  rw [← errors_readSource] at count
  refine ⟨?_, fun fits => ?_⟩
  · rw [Reading.errorCount, count]
    exact Nat.succ_pos _
  obtain ⟨e, only⟩ := List.length_eq_one_iff.mp count
  have he := only ▸ List.mem_singleton_self e
  have narrow := fits rfl e he
  rw [errors_readSource] at he
  -- it is recorded at the brace or behind it, both on the first line and too far to the right
  obtain ⟨t, place, span, -⟩ := Standard.grammar.exists_token Standard.finish_eq he
  have there : t.span.start.line = 0 ∧ n + 1 ≤ t.span.start.column := by
    rw [tokens] at place
    rcases place with inside | rfl
    · obtain rfl := List.mem_singleton.mp inside
      exact ⟨line, Nat.le_of_eq column.symm⟩
    · exact ⟨stopLine, Nat.le_trans (Nat.le_succ _) (Nat.le_of_eq stopColumn.symm)⟩
  rw [← span] at there
  exact not_fits_of_bracedLine far there.1 there.2 narrow

end GraphQL
