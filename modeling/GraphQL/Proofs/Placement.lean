/-
  Reading a text cuts it into stretches and places each of them.

  Positions are advanced piece by piece, and a position is right if it is what counting over all the
  text before it gives (`Position.behind`).  Advancing over one text and then another is advancing
  over both, except where CR LF would be counted twice: the first text ends in CR and the second
  begins with LF.  So the crux is that no piece boundary splits a CR LF.  Only a line end can end in
  CR at all, and it takes the LF with it (`isChain_pieces`).

  The pieces lie side by side and each is a token, a run of stray characters or something ignored;
  so their spans cover the text from end to end (`Tiles`).
-/
import GraphQL.Proofs.Lexemes
import GraphQL.Proofs.TokenOrder
import Mathlib.Data.List.Chain
import Mathlib.Data.List.TakeWhile

namespace GraphQL

/-! ## Counting over a text -/

/-- The line ends of a text: each LF, and each CR that no LF follows. -/
def lineEnds : List Char → Nat
  | [] => 0
  | c :: rest =>
    (if c = '\n' ∨ (c = '\r' ∧ rest.head? ≠ some '\n') then 1 else 0) + lineEnds rest

/-- What stands behind the last line end. -/
def lastLine (cs : List Char) : List Char := (cs.reverse.takeWhile isWithinLine).reverse

/-- The code units that a text takes in UTF-16. -/
def utf16Length : List Char → Nat
  | [] => 0
  | c :: rest => utf16Units c + utf16Length rest

/-- The place behind a text, counted over the whole of it. -/
def Position.behind (cs : List Char) : Position where
  line := lineEnds cs
  column := (lastLine cs).length
  units := utf16Length (lastLine cs)
  offset := utf8Length cs

/-- Without a line end a text is one line. -/
theorem lastLine_of_forall {cs : List Char} (h : ∀ c ∈ cs, isWithinLine c = true) :
    lastLine cs = cs := by
  have whole : cs.reverse.takeWhile isWithinLine = cs.reverse :=
    List.takeWhile_eq_self_iff.mpr fun c hc => h c (List.mem_reverse.mp hc)
  rw [lastLine, whole, List.reverse_reverse]

/-- In front of a text a line end changes nothing in its last line. -/
theorem lastLine_cons_of_end {c : Char} (rest : List Char) (ends : isWithinLine c = false) :
    lastLine (c :: rest) = lastLine rest := by
  unfold lastLine
  rw [List.reverse_cons, List.takeWhile_append, List.takeWhile_cons_of_neg (by simp [ends]),
    List.append_nil]
  split
  · rename_i whole
    rw [(List.takeWhile_prefix _).eq_of_length whole]
  · rfl

/-- A text without line ends has none to count, although a CR is not always counted by itself. -/
theorem lineEnds_eq_zero_iff {cs : List Char} :
    lineEnds cs = 0 ↔ ∀ c ∈ cs, isWithinLine c = true := by
  induction cs with
  | nil => exact ⟨fun _ _ => nofun, fun _ => rfl⟩
  | cons c rest ih =>
    rw [lineEnds, Nat.add_eq_zero_iff, ih, List.forall_mem_cons]
    refine and_congr_left fun others => ?_
    have noFeed : rest.head? ≠ some '\n' := fun front =>
      absurd (others '\n' (List.mem_of_mem_head? front)) (by decide)
    simp [noFeed, isWithinLine]

/-- In front of a text a character that ends no line belongs to the last line, if the text has no
    other. -/
theorem lastLine_cons_of_within {c : Char} (rest : List Char) (within : isWithinLine c = true) :
    lastLine (c :: rest) = if lineEnds rest = 0 then c :: rest else lastLine rest := by
  split
  · rename_i none
    refine lastLine_of_forall fun d hd => ?_
    rcases List.mem_cons.mp hd with rfl | hd
    · exact within
    · exact lineEnds_eq_zero_iff.mp none d hd
  · rename_i some
    unfold lastLine
    rw [List.reverse_cons, List.takeWhile_append, if_neg]
    intro whole
    have all := List.takeWhile_eq_self_iff.mp ((List.takeWhile_prefix _).eq_of_length whole)
    exact some (lineEnds_eq_zero_iff.mpr fun d hd => all d (List.mem_reverse.mpr hd))

/-- Walking over a text adds its counts; its first line goes on with the line that one stands in. -/
theorem Position.advance_eq (p : Position) (cs : List Char) :
    p.advance cs =
      { line := p.line + lineEnds cs
        column := (if lineEnds cs = 0 then p.column else 0) + (lastLine cs).length
        units := (if lineEnds cs = 0 then p.units else 0) + utf16Length (lastLine cs)
        offset := p.offset + utf8Length cs } := by
  have cr : '\r'.utf8Size = 1 := rfl
  have lf : '\n'.utf8Size = 1 := rfl
  fun_induction Position.advance p cs with
  | case1 p => rfl
  | case2 p rest ih =>
    -- CR LF is one line end
    have count : lineEnds ('\r' :: '\n' :: rest) = 1 + lineEnds rest := by simp [lineEnds]
    rw [ih, count, lastLine_cons_of_end _ (by decide), lastLine_cons_of_end _ (by decide)]
    simp [nextLine, utf8Length, cr, lf, Nat.add_assoc]
    omega
  | case3 p rest noFeed ih =>
    -- CR alone is one as well
    have front : rest.head? ≠ some '\n' := fun front => by
      obtain ⟨others, rfl⟩ := List.head?_eq_some_iff.mp front
      exact noFeed others rfl
    have count : lineEnds ('\r' :: rest) = 1 + lineEnds rest := by simp [lineEnds, front]
    rw [ih, count, lastLine_cons_of_end _ (by decide)]
    simp [nextLine, utf8Length, cr, Nat.add_assoc]
  | case4 p rest ih =>
    have count : lineEnds ('\n' :: rest) = 1 + lineEnds rest := by simp [lineEnds]
    rw [ih, count, lastLine_cons_of_end _ (by decide)]
    simp [nextLine, utf8Length, lf, Nat.add_assoc]
  | case5 p c rest noPair noReturn noFeed ih =>
    -- any other character goes on in the line
    have within : isWithinLine c = true := by
      simp only [isWithinLine, Bool.and_eq_true, bne_iff_ne]
      exact ⟨noFeed, noReturn⟩
    have count : lineEnds (c :: rest) = lineEnds rest := by
      rw [lineEnds, if_neg, Nat.zero_add]
      rintro (feed | ⟨ret, -⟩)
      · exact noFeed feed
      · exact noReturn ret
    rw [ih, count, lastLine_cons_of_within _ within]
    -- it counts for the column only if no line end is behind it
    by_cases none : lineEnds rest = 0
    · rw [lastLine_of_forall (lineEnds_eq_zero_iff.mp none)]
      simp [none, nextColumn, utf8Length, utf16Length, Nat.add_assoc, Nat.add_comm 1]
    · simp [none, nextColumn, utf8Length, Nat.add_assoc]

/-- From the start one comes to the place behind a text. -/
theorem Position.advance_start (cs : List Char) : ({} : Position).advance cs = .behind cs := by
  simp [advance_eq, behind]

/-! ## Boundaries -/

/-- Whether two texts are counted together as they are one after the other: no CR LF is split. -/
def Joint (a b : List Char) : Prop := ¬ (a.getLast? = some '\r' ∧ b.head? = some '\n')

/-- Only the last character of the first text decides whether two texts are joint. -/
theorem Joint.tail {c : Char} {a b : List Char} (h : Joint (c :: a) b) : Joint a b := by
  rintro ⟨last, front⟩
  exact h ⟨List.mem_getLast?_cons last, front⟩

/-- Walking over two texts that are not split within a line end is walking over one and then the
    other. -/
theorem Position.advance_append (p : Position) {a b : List Char} (h : Joint a b) :
    p.advance (a ++ b) = (p.advance a).advance b := by
  fun_induction Position.advance p a with
  | case1 => rfl
  | case2 p rest ih => exact ih h.tail.tail
  | case3 p rest noPair ih =>
    -- a CR at the end of the first text is not followed by LF in the second
    have noFeed : ∀ others, rest ++ b = '\n' :: others → False := by
      intro others same
      cases rest with
      | nil => exact h ⟨rfl, List.head?_eq_some_iff.mpr ⟨others, same⟩⟩
      | cons c rest =>
        cases same
        exact noPair _ rfl
    rw [List.cons_append, Position.advance.eq_3 _ _ noFeed]
    exact ih h.tail
  | case4 p rest ih => exact ih h.tail
  | case5 p c rest noPair noReturn noFeed ih =>
    rw [List.cons_append, Position.advance.eq_5 _ _ _ (fun _ ret _ => noReturn ret) noReturn noFeed]
    exact ih h.tail

/-- Whether a text ends in a character with a property. -/
def EndsIn (p : Char → Bool) (cs : List Char) : Prop := ∃ c, cs.getLast? = some c ∧ p c = true

namespace EndsIn

variable {p : Char → Bool} {cs : List Char}

theorem of_forall (some : cs ≠ []) (all : ∀ c ∈ cs, p c = true) : EndsIn p cs :=
  ⟨cs.getLast some, List.getLast?_eq_some_getLast some, all _ (List.getLast_mem some)⟩

/-- A text ends as its last part ends. -/
theorem append (h : EndsIn p cs) (before : List Char) : EndsIn p (before ++ cs) := by
  obtain ⟨c, last, holds⟩ := h
  exact ⟨c, List.mem_getLast?_append_of_mem_getLast? last, holds⟩

theorem cons (h : EndsIn p cs) (c : Char) : EndsIn p (c :: cs) := h.append [c]

/-- A text that ends otherwise is joint with any other. -/
theorem joint (h : EndsIn p cs) (noReturn : p '\r' = false) (after : List Char) :
    Joint cs after := by
  rintro ⟨ret, -⟩
  obtain ⟨c, last, holds⟩ := h
  rw [last] at ret
  cases ret
  rw [noReturn] at holds
  cases holds

end EndsIn

theorem Digits.ends {ds : List Char} (h : Digits ds) : EndsIn isDigit ds := .of_forall h.some h.all

/-- A natural number ends in a digit. -/
theorem Natural.ends {cs : List Char} (h : Natural cs) : EndsIn isDigit cs := by
  refine .of_forall (List.ne_nil_of_length_pos (Nat.pos_of_ne_zero h.pos)) fun d hd => ?_
  have front := h.head
  cases h with
  | zero =>
    obtain rfl := List.mem_singleton.mp hd
    rfl
  | @digits c ds first others =>
    obtain ⟨_, _, same, digit⟩ := front
    obtain ⟨rfl, -⟩ := List.cons.inj same
    rcases List.mem_cons.mp hd with rfl | hd
    · exact digit
    · exact others d hd

/-- So does a whole number. -/
theorem Whole.ends {cs : List Char} (h : Whole cs) : EndsIn isDigit cs := by
  cases h with
  | plain natural => exact natural.ends
  | negative natural => exact natural.ends.cons '-'

/-- A fraction ends in a digit, for its point has digits behind it. -/
theorem Fraction.ends {cs : List Char} (h : Fraction cs) : EndsIn isDigit cs := by
  obtain @⟨ds, digits⟩ := h
  exact digits.ends.cons '.'

/-- An exponent ends in a digit, with a sign or without. -/
theorem Exponent.ends {cs : List Char} (h : Exponent cs) : EndsIn isDigit cs := by
  have signed : ∀ {cs}, SignedDigits cs → EndsIn isDigit cs := by
    intro cs h
    cases h with
    | plain digits => exact digits.ends
    | plus digits | minus digits => exact digits.ends.cons _
  cases h with
  | lower digits | upper digits => exact (signed digits).cons _

/-- A float ends in a digit, whichever part is its last. -/
theorem Floating.ends {cs : List Char} (h : Floating cs) : EndsIn isDigit cs := by
  cases h with
  | fraction _ hf => exact hf.ends.append _
  | exponent _ he => exact he.ends.append _
  | both _ _ he => exact (he.ends.append _).append _

/-- A body of a block string ends in a quote. -/
theorem BlockBody.ends {cs : List Char} (h : BlockBody cs) : EndsIn (· == '"') cs := by
  induction h with
  | close => exact ⟨'"', rfl, rfl⟩
  | escape _ ih => exact ih.append ['\\', '"', '"', '"']
  | unit _ _ _ ih => exact ih.cons _

/-- A body of an inline string ends in a quote. -/
theorem InlineBody.ends {cs : List Char} (h : InlineBody cs) : EndsIn (· == '"') cs := by
  induction h with
  | close => exact ⟨'"', rfl, rfl⟩
  | unicode _ _ ih => exact ih.append ['\\', 'u', _, _, _, _]
  | escape _ _ ih => exact ih.append ['\\', _]
  | plain _ _ _ ih => exact ih.cons _

/-- A line end takes in the LF behind its CR. -/
theorem joint_lineEnd {cs : List Char} (h : 0 < lineEndLength cs) :
    Joint (cs.take (lineEndLength cs)) (cs.drop (lineEndLength cs)) := by
  unfold lineEndLength at h ⊢
  split at h
  · exact fun ⟨ret, _⟩ => by cases ret
  · rename_i rest noPair
    rintro ⟨-, front⟩
    obtain ⟨others, same⟩ := List.head?_eq_some_iff.mp front
    exact noPair others same
  · exact fun ⟨ret, _⟩ => by cases ret
  · cases h

/-- No lexeme ends within a line end. -/
theorem joint_take {c : LexemeClass} {cs : List Char} (h : 0 < c.measure cs) :
    Joint (cs.take (c.measure cs)) (cs.drop (c.measure cs)) := by
  have language := LexemeClass.language_take h
  -- only a line end can end in CR, so it alone needs to look at what follows
  cases c with
  | lineEnd => exact joint_lineEnd h
  | blank => exact (EndsIn.of_forall language.1 language.2).joint rfl _
  | byteOrderMark | comma =>
    rw [show cs.take _ = _ from language]
    exact fun ⟨ret, _⟩ => by cases ret
  | mark p =>
    rw [show cs.take _ = _ from language]
    exact fun ⟨ret, _⟩ => by cases p <;> revert ret <;> decide
  | comment =>
    obtain ⟨text, same, within⟩ := language
    rw [same]
    have all : ∀ d ∈ '#' :: text, isWithinLine d = true := List.forall_mem_cons.mpr ⟨rfl, within⟩
    exact (EndsIn.of_forall (List.cons_ne_nil _ _) all).joint rfl _
  | word =>
    obtain ⟨first, rest, same, start, parts⟩ := language
    rw [same]
    have part : isNamePart first = true := Bool.or_eq_true_iff.mpr (.inl start)
    have all : ∀ d ∈ first :: rest, isNamePart d = true := List.forall_mem_cons.mpr ⟨part, parts⟩
    exact (EndsIn.of_forall (List.cons_ne_nil _ _) all).joint rfl _
  | float => exact (Floating.ends language).joint rfl _
  | int => exact (Whole.ends language).joint rfl _
  | blockString =>
    obtain ⟨body, same, inside⟩ := language
    rw [same]
    exact (inside.ends.append ['"', '"', '"']).joint rfl _
  | inlineString =>
    obtain ⟨body, same, inside⟩ := language
    rw [same]
    exact (inside.ends.cons '"').joint rfl _

/-! ## Pieces side by side -/

/-- Whether a piece is a run of stray characters. -/
def Piece.isStray : Piece → Bool
  | .lexeme _ _ => false
  | .stray _ => true

/-- Whether two pieces can stand side by side: no line end is split between them, and no run of
    stray characters is. -/
def Piece.Beside (p q : Piece) : Prop :=
  Joint p.text q.text ∧ ¬ (p.isStray = true ∧ q.isStray = true)

/-- The first character of a text that is cut into pieces is that of the first piece. -/
theorem head?_of_mem_head?_pieces {cs : List Char} {p : Piece} (h : p ∈ (pieces cs).head?) :
    p.text.head? = cs.head? := by
  obtain ⟨others, same⟩ := List.head?_eq_some_iff.mp h
  have some : p.text ≠ [] := text_ne_nil_of_mem_pieces (same ▸ List.mem_cons_self)
  obtain ⟨c, rest, text⟩ := List.exists_cons_of_ne_nil some
  have whole := pieces_flatten cs
  rw [same, List.map_cons, List.flatten_cons, text] at whole
  rw [← whole, text]
  rfl

/-- A character that begins no lexeme is no CR. -/
theorem ne_return_of_first?_eq_none {c : Char} {cs : List Char}
    (h : LexemeClass.first? (c :: cs) = none) : c ≠ '\r' := by
  rintro rfl
  have fails := List.find?_eq_none.mp h .lineEnd (by decide)
  have some : 0 < lineEndLength ('\r' :: cs) := by
    unfold lineEndLength
    split <;> simp_all
  exact fails (decide_eq_true some)

/-- The pieces of a text stand side by side. -/
theorem isChain_pieces (cs : List Char) : (pieces cs).IsChain Piece.Beside := by
  fun_induction pieces cs with
  | case1 => exact .nil
  | case2 c rest kind first ih =>
    refine .cons ih fun q hq => ⟨?_, fun both => ?_⟩
    · have joint := joint_take (LexemeClass.measure_pos_of_first? first)
      intro split
      rw [head?_of_mem_head?_pieces hq] at split
      exact joint split
    · cases both.1
  | case3 c rest none ih =>
    have noReturn := ne_return_of_first?_eq_none none
    unfold Piece.consStray
    split
    · rename_i text others same
      rw [same] at ih
      obtain ⟨beside, chain⟩ := List.isChain_cons.mp ih
      refine .cons chain fun q hq => ⟨?_, (beside q hq).2⟩
      -- the run ends as it did before a character was put in front
      have some : (Piece.stray text).text ≠ [] :=
        text_ne_nil_of_mem_pieces (same ▸ List.mem_cons_self)
      rintro ⟨ret, feed⟩
      refine (beside q hq).1 ⟨?_, feed⟩
      exact (List.getLast?_cons_of_ne_nil some).symm.trans ret
    · rename_i single
      refine .cons ih fun q hq => ⟨?_, fun both => ?_⟩
      · rintro ⟨ret, -⟩
        cases ret
        exact noReturn rfl
      · obtain ⟨others, same⟩ := List.head?_eq_some_iff.mp hq
        cases q with
        | lexeme => cases both.2
        | stray text => exact single text others same

/-! ## Places of pieces -/

/-- What stands before a text that is not empty does not change what it is joint with. -/
theorem Joint.append_left {a b : List Char} (h : Joint a b) (some : a ≠ []) (before : List Char) :
    Joint (before ++ a) b := by
  rintro ⟨last, front⟩
  rw [List.getLast?_append_of_ne_nil _ some] at last
  exact h ⟨last, front⟩

/-- Behind some text, and then behind another that is joint with it, is behind both. -/
theorem Position.advance_behind {before text : List Char} (joint : Joint before text) :
    (Position.behind before).advance text = .behind (before ++ text) := by
  rw [← advance_start, ← advance_start, advance_append _ joint]

namespace Placed

/-- Pieces that stand side by side are placed behind all the text before them. -/
theorem exists_split_of_mem_chain {before : List Char} {ps : List Piece} {q : Placed}
    (beside : ps.IsChain Piece.Beside) (nonempty : ∀ p ∈ ps, p.text ≠ [])
    (joint : ∀ p ∈ ps.head?, Joint before p.text) (hq : q ∈ chain (.behind before) ps) :
    ∃ left right, before ++ (ps.map Piece.text).flatten = left ++ q.piece.text ++ right ∧
      q.start = .behind left ∧ q.stop = .behind (left ++ q.piece.text) := by
  induction ps generalizing before with
  | nil => cases hq
  | cons p rest ih =>
    have further := Position.advance_behind (joint p rfl)
    rw [chain, further] at hq
    obtain ⟨next, others⟩ := List.isChain_cons.mp beside
    rcases List.mem_cons.mp hq with rfl | hq
    · -- the first piece stands behind what is before all of them
      refine ⟨before, (rest.map Piece.text).flatten, ?_, rfl, rfl⟩
      rw [List.map_cons, List.flatten_cons, List.append_assoc]
    · -- each other piece stands behind the first one too
      have first := nonempty p List.mem_cons_self
      obtain ⟨left, right, split, places⟩ :=
        ih others (fun r hr => nonempty r (List.mem_cons_of_mem _ hr))
          (fun r hr => (next r hr).1.append_left first before) hq
      refine ⟨left, right, ?_, places⟩
      rw [List.map_cons, List.flatten_cons, ← List.append_assoc, split]

/-- The pieces of a text are placed behind all the text before them. -/
theorem exists_split {cs : List Char} {q : Placed} (hq : q ∈ chain {} (pieces cs)) :
    ∃ left right, cs = left ++ q.piece.text ++ right ∧ q.start = .behind left ∧
      q.stop = .behind (left ++ q.piece.text) := by
  have start : q ∈ chain (.behind []) (pieces cs) := hq
  have joint : ∀ p ∈ (pieces cs).head?, Joint [] p.text := fun _ _ h => nomatch h.1
  have split := exists_split_of_mem_chain (isChain_pieces cs) (fun p => text_ne_nil_of_mem_pieces)
    joint start
  rwa [pieces_flatten] at split

end Placed

/-! ## Slices -/

/-- The bytes of two texts in a row add up. -/
theorem utf8Length_append (a b : List Char) : utf8Length (a ++ b) = utf8Length a + utf8Length b := by
  induction a with
  | nil => exact (Nat.zero_add _).symm
  | cons c a ih => rw [List.cons_append, utf8Length, utf8Length, ih, Nat.add_assoc]

/-- The bytes counted over the characters of a string are the bytes of that string. -/
theorem utf8Length_toList (s : String) : utf8Length s.toList = s.utf8ByteSize := by
  have ofList : ∀ cs : List Char, (String.ofList cs).utf8ByteSize = utf8Length cs := by
    intro cs
    induction cs with
    | nil => rfl
    | cons c cs ih =>
      rw [String.ofList_cons, String.utf8ByteSize_append, String.utf8ByteSize_singleton, ih,
        utf8Length]
  rw [← ofList, String.ofList_toList]

/-- A text can be split behind each of its beginnings. -/
theorem ByteSpan.splitAfter_append (a b : List Char) :
    splitAfter (utf8Length a) (a ++ b) = some (a, b) := by
  induction a with
  | nil =>
    unfold utf8Length splitAfter
    rfl
  | cons c a ih =>
    obtain ⟨n, hn⟩ := Nat.exists_eq_succ_of_ne_zero (Nat.ne_of_gt (utf8Length_pos
      (List.cons_ne_nil c a)))
    have size : c.utf8Size ≤ n + 1 := by
      rw [← Nat.succ_eq_add_one, ← hn, utf8Length]
      omega
    have others : n + 1 - c.utf8Size = utf8Length a := by
      rw [← Nat.succ_eq_add_one, ← hn, utf8Length]
      omega
    rw [hn, List.cons_append, splitAfter, if_pos size, others, ih]
    rfl

/-- The text of a source that a span covers. -/
def Span.covered (s : Span) (source : String) : Option String :=
  ByteSpan.slice ⟨s.start.offset, s.stop.offset⟩ source

/-- A span around a part of a source covers it. -/
theorem Span.covered_eq {s : Span} {source : String} {left text right : List Char}
    (nonempty : text ≠ []) (split : source.toList = left ++ text ++ right)
    (start : s.start.offset = utf8Length left)
    (stop : s.stop.offset = utf8Length (left ++ text)) :
    s.covered source = some (String.ofList text) := by
  have width := utf8Length_pos nonempty
  rw [utf8Length_append] at stop
  -- a span that is not empty is a place
  have place : (ByteSpan.mk s.start.offset s.stop.offset).isPlace = true := by
    refine bne_iff_ne.mpr fun nowhere => ?_
    obtain ⟨hstart, hstop⟩ := ByteSpan.mk.inj nowhere
    omega
  have forward : s.start.offset ≤ s.stop.offset := by omega
  have length : s.stop.offset - s.start.offset = utf8Length text := by omega
  unfold covered ByteSpan.slice
  rw [if_pos (by rw [place]; simpa using forward), split, List.append_assoc]
  simp only [start, ByteSpan.splitAfter_append, Option.bind_eq_bind, Option.bind_some]
  rw [← start, length, ByteSpan.splitAfter_append]
  rfl

/-! ## Tiles -/

/-- Spans that cover the bytes between two offsets one after the other, without gap or overlap. -/
inductive Tiles : Nat → List Span → Nat → Prop where
  | nil (place : Nat) : Tiles place [] place
  | cons {s : Span} {spans : List Span} {stop : Nat} (width : s.start.offset < s.stop.offset)
      (others : Tiles s.stop.offset spans stop) : Tiles s.start.offset (s :: spans) stop

/-- Spans that tile a stretch hold bytes, lie in it, and stand one after another. -/
theorem Tiles.ordered {place stop : Nat} {spans : List Span} (h : Tiles place spans stop) :
    place ≤ stop ∧
      (∀ s ∈ spans, place ≤ s.start.offset ∧ s.start.offset < s.stop.offset ∧
        s.stop.offset ≤ stop) ∧
      spans.Pairwise fun a b => a.stop.offset ≤ b.start.offset := by
  induction h with
  | nil => exact ⟨Nat.le_refl _, fun _ => nofun, .nil⟩
  | @cons s spans stop width _ ih =>
    obtain ⟨within, inside, ordered⟩ := ih
    refine ⟨by omega, fun r hr => ?_, .cons (fun r hr => (inside r hr).1) ordered⟩
    rcases List.mem_cons.mp hr with rfl | later
    · exact ⟨Nat.le_refl _, width, within⟩
    · obtain ⟨front, wide, back⟩ := inside r later
      exact ⟨by omega, wide, back⟩

namespace Placed

variable (file : Option String)

/-- Pieces that are set one after the other tile what they are set on. -/
theorem tiles_chain {start : Position} {ps : List Piece} (nonempty : ∀ p ∈ ps, p.text ≠ []) :
    Tiles start.offset ((chain start ps).map fun p => p.span file)
      (start.offset + utf8Length (ps.map Piece.text).flatten) := by
  induction ps generalizing start with
  | nil => exact .nil _
  | cons p rest ih =>
    have width := utf8Length_pos (nonempty p List.mem_cons_self)
    have others := @ih (start.advance p.text) fun r hr => nonempty r (List.mem_cons_of_mem _ hr)
    rw [Position.offset_advance, Nat.add_assoc, ← utf8Length_append,
      ← Position.offset_advance] at others
    have forward : start.offset < (start.advance p.text).offset := by
      rw [Position.offset_advance]
      omega
    exact Tiles.cons (s := ⟨start, start.advance p.text, file⟩) forward others

/-- The pieces of a text tile it. -/
theorem tiles_pieces (source : String) :
    Tiles 0 ((chain {} (pieces source.toList)).map fun p => p.span file) source.utf8ByteSize := by
  have tiles : Tiles ({} : Position).offset
      ((chain {} (pieces source.toList)).map fun p => p.span file)
      (0 + utf8Length ((pieces source.toList).map Piece.text).flatten) :=
    tiles_chain file fun p => text_ne_nil_of_mem_pieces
  rwa [pieces_flatten, utf8Length_toList, Nat.zero_add] at tiles

/-- The span of a piece that is ignored. -/
def ignored? (p : Placed) : Option Span :=
  match p.piece with
  | .lexeme c text => if (c.tokenKind? text).isNone then some (p.span file) else none
  | .stray _ => none

/-- Each piece is a token, an error or ignored, and stands in the place of what it is. -/
theorem sorted (p : Placed) (nonempty : p.piece.text ≠ []) :
    (∃ t, p.token? file = some t ∧ p.error? file = none ∧ p.ignored? file = none) ∨
      (∃ e, p.token? file = none ∧ p.error? file = some e ∧ p.ignored? file = none) ∨
      (p.token? file = none ∧ p.error? file = none ∧ p.ignored? file = some (p.span file)) := by
  rcases p with ⟨piece, start, stop⟩
  cases piece with
  | lexeme c text =>
    cases shown : c.tokenKind? text with
    | some kind =>
      exact .inl ⟨⟨kind, String.ofList text, ⟨start, stop, file⟩, false⟩,
        by simp [token?, shown, span], rfl, by simp [ignored?, shown]⟩
    | none => exact .inr (.inr ⟨by simp [token?, shown], rfl, by simp [ignored?, shown]⟩)
  | stray text =>
    obtain ⟨c, rest, rfl⟩ := List.exists_cons_of_ne_nil (show text ≠ [] from nonempty)
    exact .inr (.inl ⟨_, rfl, rfl, rfl⟩)

/-- The error of a piece is found at the span of that piece. -/
theorem span_of_error? {p : Placed} {e : LexicalError} (h : p.error? file = some e) :
    e.span = p.span file := by
  unfold error? at h
  split at h
  · cases h
    rfl
  · cases h

/-- The spans of pieces are those of the tokens, of the errors and of what is ignored. -/
theorem perm_spans {ps : List Placed} (nonempty : ∀ p ∈ ps, p.piece.text ≠ []) :
    (ps.map fun p => p.span file).Perm
      ((ps.filterMap (token? file)).map Token.span
        ++ (ps.filterMap (error? file)).map LexicalError.span ++ ps.filterMap (ignored? file)) := by
  induction ps with
  | nil => exact .refl _
  | cons p rest ih =>
    have others := ih fun q hq => nonempty q (List.mem_cons_of_mem _ hq)
    rw [List.map_cons]
    -- a piece is a token, an error, or ignored
    rcases p.sorted file (nonempty p List.mem_cons_self) with
      ⟨t, token, error, ignored⟩ | ⟨e, token, error, ignored⟩ | ⟨token, error, ignored⟩
    · rw [List.filterMap_cons_some token, List.filterMap_cons_none error,
        List.filterMap_cons_none ignored, List.map_cons, span_of_token? token]
      exact others.cons _
    · rw [List.filterMap_cons_none token, List.filterMap_cons_some error,
        List.filterMap_cons_none ignored, List.map_cons, span_of_error? file error]
      refine (others.cons _).trans ?_
      rw [List.append_assoc, List.append_assoc]
      exact List.perm_middle.symm
    · rw [List.filterMap_cons_none token, List.filterMap_cons_none error,
        List.filterMap_cons_some ignored]
      exact (others.cons _).trans List.perm_middle.symm

/-- Between two runs of stray characters stands something else. -/
theorem pairwise_strays {start : Position} {ps : List Piece} (beside : ps.IsChain Piece.Beside)
    (nonempty : ∀ p ∈ ps, p.text ≠ []) :
    (chain start ps).Pairwise fun a b =>
      a.piece.isStray = true → b.piece.isStray = true → a.stop.offset < b.start.offset := by
  induction ps generalizing start with
  | nil => exact .nil
  | cons p rest ih =>
    obtain ⟨next, others⟩ := List.isChain_cons.mp beside
    refine .cons (fun q hq first second => ?_)
      (ih others fun r hr => nonempty r (List.mem_cons_of_mem _ hr))
    cases rest with
    | nil => cases hq
    | cons r rest =>
      rcases List.mem_cons.mp hq with rfl | hq
      · -- stray characters side by side are one piece
        exact absurd ⟨first, second⟩ (next r rfl).2
      · -- between two others there is a piece, and it is not empty
        have width := utf8Length_pos (nonempty r (List.mem_cons_of_mem _ List.mem_cons_self))
        have further := offset_le_of_mem_chain hq
        rw [Position.offset_advance] at further
        show (start.advance p.text).offset < q.start.offset
        omega

end Placed

/-! ## Whole texts -/

/-- Whether a place is the one behind some text from the start of a source, counted over all of that
    text. -/
def Position.CountedIn (p : Position) (source : String) : Prop :=
  ∃ before after, source.toList = before ++ after ∧ p = .behind before

/-- Whether a text is one that is ignored: blanks, a byte order mark, a line end, a comment or a
    comma. -/
def Ignorable (text : List Char) : Prop :=
  ∃ c : LexemeClass, c.tokenKind? text = none ∧ c.Language text

namespace Placed

variable {source : String} {q : Placed}

/-- A piece of a source covers its text, between two places that are counted over all of the source
    before them. -/
theorem places_of_mem_chain (hq : q ∈ chain {} (pieces source.toList)) (file : Option String) :
    (q.span file).covered source = some (String.ofList q.piece.text) ∧
      q.start.CountedIn source ∧ q.stop.CountedIn source := by
  obtain ⟨left, right, split, start, stop⟩ := exists_split hq
  have nonempty : q.piece.text ≠ [] := text_ne_nil_of_mem_pieces (piece_of_mem_chain hq)
  refine ⟨?_, ⟨left, q.piece.text ++ right, ?_, start⟩, ⟨_, right, split, stop⟩⟩
  · refine Span.covered_eq nonempty split ?_ ?_
    · exact congrArg Position.offset start
    · exact congrArg Position.offset stop
  · rw [split, List.append_assoc]

/-- A token is written as its piece. -/
theorem text_of_token? {file : Option String} {t : Token} (h : q.token? file = some t) :
    t.text = String.ofList q.piece.text := by
  unfold token? at h
  split at h
  · rename_i c text same
    obtain ⟨kind, -, rfl⟩ := Option.map_eq_some_iff.mp h
    rw [same]
    rfl
  · cases h

/-- An error is a run of stray characters; it has the first of them and their number. -/
theorem stray_of_error? {file : Option String} {e : LexicalError} (h : q.error? file = some e) :
    q.piece.isStray = true ∧ q.piece.text.length = e.count ∧
      q.piece.text.head? = some e.first := by
  unfold error? at h
  split at h
  · rename_i c rest same
    cases h
    rw [same]
    exact ⟨rfl, rfl, rfl⟩
  · cases h

/-- What is ignored is a lexeme of an ignored class. -/
theorem ignorable_of_ignored? {file : Option String} {s : Span}
    (hq : q.piece ∈ pieces source.toList) (h : q.ignored? file = some s) :
    s = q.span file ∧ Ignorable q.piece.text := by
  unfold ignored? at h
  split at h
  · rename_i c text same
    split at h
    · rename_i none
      cases h
      rw [same] at hq ⊢
      exact ⟨rfl, c, Option.isNone_iff_eq_none.mp none, LexemeClass.language_of_mem_pieces hq⟩
    · cases h
  · cases h

end Placed

/-- Lexing partitions a text, and its positions are exact.  The spans of the tokens, of the errors
    and of what is ignored, set in order, cover the text from end to end.  A token covers its own
    text, which is not empty; an error covers as many characters as it counts, and no error touches
    another. And each place where one of them begins or ends is the one that counting over all the
    text before it gives. -/
theorem lexing_partitions (source : String) (file : Option String) :
    ∃ spans ignored : List Span,
      spans.Perm ((Scan.ofSource source file).tokens.map Token.span
        ++ (Scan.ofSource source file).errors.map LexicalError.span ++ ignored) ∧
      Tiles 0 spans source.utf8ByteSize ∧
      (∀ t ∈ (Scan.ofSource source file).tokens,
        t.text ≠ "" ∧ t.span.covered source = some t.text) ∧
      (∀ e ∈ (Scan.ofSource source file).errors, ∃ text,
        e.span.covered source = some text ∧ text.length = e.count ∧
          text.toList.head? = some e.first) ∧
      ((Scan.ofSource source file).errors.Pairwise fun a b =>
        a.span.stop.offset < b.span.start.offset) ∧
      (∀ s ∈ ignored, ∃ text, s.covered source = some text ∧ Ignorable text.toList) ∧
      ∀ s ∈ spans, s.start.CountedIn source ∧ s.stop.CountedIn source := by
  let placed := Placed.chain {} (pieces source.toList)
  have nonempty : ∀ q ∈ placed, q.piece.text ≠ [] := fun q hq =>
    text_ne_nil_of_mem_pieces (Placed.piece_of_mem_chain hq)
  refine ⟨placed.map fun q => q.span file, placed.filterMap (Placed.ignored? file),
    Placed.perm_spans file nonempty, Placed.tiles_pieces file source, fun t ht => ?_,
    fun e he => ?_, ?_, fun s hs => ?_, fun s hs => ?_⟩
  · -- a token is a piece that is not empty
    obtain ⟨q, hq, token⟩ := List.mem_filterMap.mp ht
    obtain ⟨covered, -⟩ := Placed.places_of_mem_chain hq file
    rw [Placed.span_of_token? token, Placed.text_of_token? token]
    refine ⟨fun empty => nonempty q hq ?_, covered⟩
    simpa using congrArg String.toList empty
  · -- an error counts the characters of its piece
    obtain ⟨q, hq, error⟩ := List.mem_filterMap.mp he
    obtain ⟨covered, -⟩ := Placed.places_of_mem_chain hq file
    obtain ⟨-, count, first⟩ := Placed.stray_of_error? error
    refine ⟨_, Placed.span_of_error? file error ▸ covered, ?_, ?_⟩
    · rw [String.length_ofList, count]
    · rw [String.toList_ofList, first]
  · -- two errors do not touch
    refine List.Pairwise.filterMap _ (fun p q apart e he e' he' => ?_)
      (Placed.pairwise_strays (isChain_pieces source.toList) fun p => text_ne_nil_of_mem_pieces)
    rw [Placed.span_of_error? file he, Placed.span_of_error? file he']
    exact apart (Placed.stray_of_error? he).1 (Placed.stray_of_error? he').1
  · -- what is ignored is spelled by one of the classes for that
    obtain ⟨q, hq, ignored⟩ := List.mem_filterMap.mp hs
    obtain ⟨rfl, ignorable⟩ := Placed.ignorable_of_ignored? (Placed.piece_of_mem_chain hq) ignored
    exact ⟨_, (Placed.places_of_mem_chain hq file).1, (String.toList_ofList ..).symm ▸ ignorable⟩
  · -- each place is counted from the beginning of the text
    obtain ⟨q, hq, rfl⟩ := List.mem_map.mp hs
    exact (Placed.places_of_mem_chain hq file).2

/-- A line end of two characters counts once, also where an error stands before it. -/
example : (Scan.ofSource "?\r\n a").tokens.map (fun t => t.span.start) = [⟨1, 1, 1, 4⟩] := by
  decide +kernel

end GraphQL
