/-
  Block strings stand for what the language says.

  The language gives an order: cut the text at its line ends, take off the indentation that all lines
  but the first have in common and the blank lines at both ends, join what is left, and only then
  resolve the one escape, the backslash in front of three quotes (`Documented`).  The decoder resolves
  the escape first, on the text as it is written (`Quoted.decodeBlock`).

  The result is the same since no step sees the difference.  The escape stands within a line, as it has
  no line end in it (`textLines_resolveQuotes`).  It is no indentation and what it stands for is none,
  so lines are indented as before and the same ones are blank (`takeWhile_resolveQuotes`); and what is
  taken off a line is all indentation, in which nothing is escaped (`resolveQuotes_drop`).  Last, no
  escape comes about or is broken where lines are joined, for a line end is no quote
  (`resolveQuotes_append`).
-/
import GraphQL.Document.OfTree.Value
import GraphQL.Proofs.QuoteJumps
import GraphQL.Proofs.Relexing
import GraphQL.Proofs.Spelling
import Mathlib.Data.List.DropRight
import Mathlib.Order.Bounds.Basic

namespace GraphQL

namespace Quoted

/-! ## What the language says -/

/-- A text and its lines.  CR LF, CR and LF each end a line, and CR LF is one end and not two. -/
inductive Cut : List Char → List (List Char) → Prop where
  | last {line : List Char} (plain : ∀ c ∈ line, c ≠ '\r' ∧ c ≠ '\n') : Cut line [line]
  | more {line stop rest : List Char} {lines : List (List Char)}
      (plain : ∀ c ∈ line, c ≠ '\r' ∧ c ≠ '\n') (stops : LexemeClass.lineEnd.Language stop)
      (whole : stop = ['\r'] → rest.head? ≠ some '\n') (others : Cut rest lines) :
      Cut (line ++ (stop ++ rest)) (line :: lines)

/-- The indentation that the lines that are not blank have in common: the least they have, or none
    if all lines are blank. -/
def IsCommon (lines : List (List Char)) (n : Nat) : Prop :=
  IsLeast {k | ∃ line ∈ lines, isBlankLine line = false ∧ indentation line = k} n
    ∨ (∀ line ∈ lines, isBlankLine line = true) ∧ n = 0

/-- What is left of some lines if the blank ones are taken off both ends. -/
structure Trimmed (lines kept : List (List Char)) : Prop where
  split : ∃ above below, lines = above ++ (kept ++ below) ∧
    ∀ line ∈ above ++ below, isBlankLine line = true
  first : ∀ line, kept.head? = some line → isBlankLine line = false
  last : ∀ line, kept.getLast? = some line → isBlankLine line = false

/-- What stands between the quotes of a block string, and the text that the language takes it
    for. -/
inductive Documented : List Char → List Char → Prop where
  | intro {content first : List Char} {others kept : List (List Char)} {n : Nat}
      (cut : Cut content (first :: others)) (common : IsCommon others n)
      (trimmed : Trimmed (first :: others.map (List.drop n)) kept) :
      Documented content (resolveQuotes (['\n'].intercalate kept))

/-! ## Lines -/

section Lines

variable {cs line rest stop : List Char} {lines : List (List Char)}

theorem textLines_ne_nil (cs : List Char) : textLines cs ≠ [] := by
  fun_induction textLines cs <;> exact List.cons_ne_nil _ _

/-- A character that ends no line joins the first line. -/
theorem textLines_cons {c : Char} (plain : c ≠ '\r' ∧ c ≠ '\n')
    (behind : textLines rest = line :: lines) : textLines (c :: rest) = (c :: line) :: lines := by
  rw [textLines.eq_5 c rest (fun _ cr => absurd cr plain.1) plain.1 plain.2, behind]

/-- A text without line ends joins the first line of what follows it. -/
theorem textLines_append {front : List Char} (plain : ∀ c ∈ front, c ≠ '\r' ∧ c ≠ '\n')
    (behind : textLines rest = line :: lines) :
    textLines (front ++ rest) = (front ++ line) :: lines := by
  induction front with
  | nil => exact behind
  | cons c front ih =>
    obtain ⟨first, others⟩ := List.forall_mem_cons.mp plain
    exact textLines_cons first (ih others)

/-- A line end in front ends an empty line.  CR alone is one only if no LF follows it. -/
theorem textLines_stop (stops : LexemeClass.lineEnd.Language stop)
    (whole : stop = ['\r'] → rest.head? ≠ some '\n') :
    textLines (stop ++ rest) = [] :: textLines rest := by
  rcases stops with rfl | rfl | rfl
  · exact textLines.eq_2 rest
  · refine textLines.eq_3 rest fun rest' same => whole rfl ?_
    rw [same]
    rfl
  · exact textLines.eq_4 rest

/-- A text has no other lines than those it is cut into. -/
theorem Cut.eq (h : Cut cs lines) : lines = textLines cs := by
  induction h with
  | @last line plain =>
    have whole : textLines (line ++ []) = [line ++ []] := textLines_append plain textLines.eq_1
    rw [List.append_nil] at whole
    exact whole.symm
  | more plain stops whole _ ih =>
    rw [textLines_append plain (textLines_stop stops whole), List.append_nil, ih]

/-- A cut text stays cut with a further character in its first line. -/
theorem Cut.cons {c : Char} (plain : c ≠ '\r' ∧ c ≠ '\n') (h : Cut cs (line :: lines)) :
    Cut (c :: cs) ((c :: line) :: lines) := by
  cases h with
  | last others => exact .last (List.forall_mem_cons.mpr ⟨plain, others⟩)
  | more others stops whole rest =>
    exact .more (List.forall_mem_cons.mpr ⟨plain, others⟩) stops whole rest

/-- The lines of a text are a cut of it. -/
theorem cut_textLines (cs : List Char) : Cut cs (textLines cs) := by
  have none : ∀ c ∈ ([] : List Char), c ≠ '\r' ∧ c ≠ '\n' := fun _ h => absurd h List.not_mem_nil
  fun_induction textLines cs with
  | case1 => exact .last none
  | case2 rest ih => exact .more none (.inl rfl) nofun ih
  | case3 rest noLineFeed ih =>
    refine .more none (.inr (.inl rfl)) (fun _ head => ?_) ih
    obtain ⟨others, same⟩ := List.head?_eq_some_iff.mp head
    exact noLineFeed others same
  | case4 rest ih => exact .more none (.inr (.inr rfl)) nofun ih
  | case5 c rest _ _ _ empty => exact absurd empty (textLines_ne_nil rest)
  | case6 c rest _ noReturn noLineFeed line others same ih =>
    rw [same] at ih
    exact ih.cons ⟨noReturn, noLineFeed⟩

end Lines

/-! ## Indentation -/

/-- The indentation that the decoder finds is the one that the lines have in common. -/
theorem isCommon_commonIndentation (lines : List (List Char)) :
    IsCommon lines (commonIndentation lines) := by
  unfold commonIndentation
  cases least : ((lines.filter fun line => !isBlankLine line).map indentation).min? with
  | none =>
    have empty := List.map_eq_nil_iff.mp (List.min?_eq_none_iff.mp least)
    refine .inr ⟨fun line hline => ?_, rfl⟩
    simpa using List.filter_eq_nil_iff.mp empty line hline
  | some n =>
    obtain ⟨mem, le⟩ := List.min?_eq_some_iff.mp least
    have listed : ∀ k, k ∈ (lines.filter fun line => !isBlankLine line).map indentation
        ↔ ∃ line ∈ lines, isBlankLine line = false ∧ indentation line = k := fun k => by
      simp only [List.mem_map, List.mem_filter, Bool.not_eq_true', and_assoc]
    exact .inl ⟨(listed n).mp mem, fun k hk => le k ((listed k).mpr hk)⟩

/-- Lines have one indentation in common: two least elements are the same, and if all lines are
    blank there is none to be least. -/
theorem IsCommon.unique {lines : List (List Char)} {m n : Nat} (hm : IsCommon lines m)
    (hn : IsCommon lines n) : m = n := by
  have apart : ∀ {n},
      IsLeast {k | ∃ line ∈ lines, isBlankLine line = false ∧ indentation line = k} n →
      ¬ ∀ line ∈ lines, isBlankLine line = true := by
    rintro n ⟨⟨line, hline, shown, -⟩, -⟩ blank
    rw [blank line hline] at shown
    cases shown
  rcases hm with hm | ⟨blank, rfl⟩
  · rcases hn with hn | ⟨blank, -⟩
    · exact hm.unique hn
    · exact absurd blank (apart hm)
  · rcases hn with hn | ⟨-, rfl⟩
    · exact absurd blank (apart hn)
    · rfl

/-- What is taken off a line is all indentation. -/
theorem IsCommon.take {lines : List (List Char)} {n : Nat} (h : IsCommon lines n) {line : List Char}
    (hline : line ∈ lines) : (line.take n).all isIndent = true := by
  rw [List.all_eq_true]
  intro c hc
  -- a line that is not blank is indented as far at least, and a blank one has nothing else
  by_cases blank : isBlankLine line = true
  · exact List.all_eq_true.mp blank c (List.mem_of_mem_take hc)
  · rcases h with ⟨-, least⟩ | ⟨all, -⟩
    · have le : n ≤ indentation line := least ⟨line, hline, by simpa using blank, rfl⟩
      have front : line.take n <+: line.takeWhile isIndent :=
        List.prefix_of_prefix_length_le (List.take_prefix ..) (List.takeWhile_prefix _)
          (by rw [List.length_take]; exact (Nat.min_le_left ..).trans le)
      exact List.mem_takeWhile_imp (front.subset hc)
    · exact absurd (all line hline) blank

/-! ## Blank lines at the ends -/

/-- Nothing is dropped where the first element is to be kept. -/
theorem dropWhile_of_head? {α : Type} {p : α → Bool} {l : List α}
    (h : ∀ a, l.head? = some a → p a = false) : l.dropWhile p = l := by
  cases l with
  | nil => rfl
  | cons a l => exact List.dropWhile_cons_of_neg (by rw [h a rfl]; exact Bool.false_ne_true)

/-- Behind what is dropped comes an element that is to be kept. -/
theorem not_of_head?_dropWhile {α : Type} {p : α → Bool} {l : List α} {a : α}
    (h : (l.dropWhile p).head? = some a) : p a = false := by
  have first := List.head?_dropWhile_not p l
  rw [h] at first
  exact first

/-- What is left has no lines left to take off, and nothing else is left. -/
theorem Trimmed.eq {lines kept : List (List Char)} (h : Trimmed lines kept) :
    kept = trimBlankLines lines := by
  obtain ⟨above, below, rfl, blank⟩ := h.split
  obtain ⟨blankAbove, blankBelow⟩ := List.forall_mem_append.mp blank
  rw [trimBlankLines, List.dropWhile_append_of_pos blankAbove]
  cases kept with
  | nil =>
    -- then all lines are blank, and they are taken off from above
    rw [List.nil_append, List.dropWhile_eq_nil_iff.mpr blankBelow]
    rfl
  | cons line kept =>
    have front : ((line :: kept) ++ below).dropWhile isBlankLine = (line :: kept) ++ below :=
      dropWhile_of_head? h.first
    have back : (line :: kept).reverse.dropWhile isBlankLine = (line :: kept).reverse :=
      dropWhile_of_head? fun a ha => h.last a (by rwa [← List.head?_reverse])
    rw [front, List.reverse_append,
      List.dropWhile_append_of_pos (fun a ha => blankBelow a (List.mem_reverse.mp ha)), back,
      List.reverse_reverse]

/-- The decoder takes blank lines off both ends and leaves none there. -/
theorem trimmed_trimBlankLines (lines : List (List Char)) :
    Trimmed lines (trimBlankLines lines) where
  split := by
    refine ⟨lines.takeWhile isBlankLine,
      (lines.dropWhile isBlankLine).rtakeWhile isBlankLine, ?_, ?_⟩
    · -- the lines that were taken off, put back again
      show _ = _ ++ ((lines.dropWhile isBlankLine).rdropWhile isBlankLine ++ _)
      rw [List.rdropWhile_append_rtakeWhile, List.takeWhile_append_dropWhile]
    · -- and these lines are blank
      refine List.forall_mem_append.mpr ⟨fun line h => ?_, fun line h => ?_⟩
      · exact List.mem_takeWhile_imp h
      · exact List.mem_rtakeWhile_imp h
  -- what is dropped at the end leaves the first line where it is
  first := fun line h => by
    obtain ⟨below, split⟩ := List.rdropWhile_prefix isBlankLine (lines.dropWhile isBlankLine)
    have front : (lines.dropWhile isBlankLine).head? = some line := by
      rw [← split, List.head?_append]
      exact congrArg (Option.or · below.head?) h
    exact not_of_head?_dropWhile front
  last := fun line h => by
    rw [trimBlankLines, List.getLast?_reverse] at h
    exact not_of_head?_dropWhile h

/-! ## Escapes and lines -/

/-- Resolving the escape adds no character. -/
theorem mem_of_mem_resolveQuotes {cs : List Char} {c : Char} (h : c ∈ resolveQuotes cs) :
    c ∈ cs := by
  fun_induction resolveQuotes cs with
  | case1 rest ih =>
    simp only [List.mem_cons] at h ⊢
    rcases h with quote | quote | quote | inside
    · exact .inr (.inl quote)
    · exact .inr (.inl quote)
    · exact .inr (.inl quote)
    · exact .inr (.inr (.inr (.inr (ih inside))))
  | case2 d rest _ ih =>
    rcases List.mem_cons.mp h with rfl | inside
    · exact List.mem_cons_self
    · exact List.mem_cons_of_mem d (ih inside)
  | case3 => exact h

/-- No escape goes on beyond a place where no quote stands. -/
theorem resolveQuotes_append {rest : List Char} (noQuote : rest.head? ≠ some '"') (cs : List Char) :
    resolveQuotes (cs ++ rest) = resolveQuotes cs ++ resolveQuotes rest := by
  fun_induction resolveQuotes cs with
  | case1 behind ih =>
    simp only [List.cons_append, ← ih]
    exact resolveQuotes.eq_1 _
  | case2 c behind noEscape ih =>
    rw [List.cons_append, resolveQuotes.eq_2 c _ ?_, ih, List.cons_append]
    -- an escape that goes on beyond the place has a quote there
    rintro after rfl same
    match behind, same with
    | [], same => exact noQuote (congrArg List.head? same)
    | [_], same => exact noQuote (congrArg (fun cs => (cs.drop 1).head?) same)
    | [_, _], same => exact noQuote (congrArg (fun cs => (cs.drop 2).head?) same)
    | a :: b :: c :: behind, same =>
      cases same
      exact noEscape _ rfl rfl
  | case3 => rfl

/-- A character that is no backslash begins no escape and stays. -/
theorem resolveQuotes_of_ne {c : Char} (plain : c ≠ '\\') (rest : List Char) :
    resolveQuotes (c :: rest) = c :: resolveQuotes rest :=
  resolveQuotes.eq_2 c rest fun _ backslash => absurd backslash plain

/-- A resolved text that begins with something other than a quote begins as the written text
    does. -/
theorem head?_resolveQuotes {cs : List Char} {c : Char} (noQuote : c ≠ '"')
    (h : (resolveQuotes cs).head? = some c) : cs.head? = some c := by
  fun_cases resolveQuotes cs with
  | case1 rest =>
    cases h
    exact absurd rfl noQuote
  | case2 d rest noEscape =>
    rw [resolveQuotes.eq_2 d rest noEscape] at h
    exact h
  | case3 => exact h

/-- A line end is no part of an escape, and nothing in it is changed. -/
theorem resolveQuotes_append_stop {stop : List Char} (stops : LexemeClass.lineEnd.Language stop)
    (line rest : List Char) :
    resolveQuotes (line ++ (stop ++ rest)) = resolveQuotes line ++ (stop ++ resolveQuotes rest) := by
  have noQuote : (stop ++ rest).head? ≠ some '"' := by
    rcases stops with rfl | rfl | rfl <;> exact mt Option.some.inj (by decide)
  have same : resolveQuotes (stop ++ rest) = stop ++ resolveQuotes rest := by
    rcases stops with rfl | rfl | rfl
    · exact (resolveQuotes_of_ne (by decide) _).trans
        (congrArg ('\r' :: ·) (resolveQuotes_of_ne (by decide) rest))
    · exact resolveQuotes_of_ne (by decide) rest
    · exact resolveQuotes_of_ne (by decide) rest
  rw [resolveQuotes_append noQuote, same]

/-- A text in which the escapes are resolved is cut where it was cut before. -/
theorem Cut.resolveQuotes {cs : List Char} {lines : List (List Char)} (h : Cut cs lines) :
    Cut (resolveQuotes cs) (lines.map resolveQuotes) := by
  have still : ∀ {line : List Char}, (∀ c ∈ line, c ≠ '\r' ∧ c ≠ '\n') →
      ∀ c ∈ Quoted.resolveQuotes line, c ≠ '\r' ∧ c ≠ '\n' :=
    fun plain c hc => plain c (mem_of_mem_resolveQuotes hc)
  induction h with
  | last plain => exact .last (still plain)
  | more plain stops whole _ ih =>
    rw [resolveQuotes_append_stop stops]
    exact .more (still plain) stops
      (fun cr head => whole cr (head?_resolveQuotes (by decide) head)) ih

/-- Cutting a text into lines and resolving the escape may be done in either order. -/
theorem textLines_resolveQuotes (cs : List Char) :
    textLines (resolveQuotes cs) = (textLines cs).map resolveQuotes :=
  (cut_textLines cs).resolveQuotes.eq.symm

/-- Joining lines and resolving the escape may be done in either order. -/
theorem intercalate_resolveQuotes (lines : List (List Char)) :
    ['\n'].intercalate (lines.map resolveQuotes) = resolveQuotes (['\n'].intercalate lines) := by
  induction lines with
  | nil => rfl
  | cons line others ih =>
    cases others with
    | nil => rw [List.map_singleton, List.intercalate_singleton, List.intercalate_singleton]
    | cons next others =>
      rw [List.map_cons] at ih
      rw [List.map_cons, List.map_cons, List.intercalate_cons_cons, List.intercalate_cons_cons, ih,
        List.append_assoc, List.append_assoc, resolveQuotes_append_stop (.inr (.inr rfl))]

/-! ## Escapes and indentation -/

/-- The escape and what it stands for are no indentation, so a line keeps what it is indented by. -/
theorem takeWhile_resolveQuotes (cs : List Char) :
    (resolveQuotes cs).takeWhile isIndent = cs.takeWhile isIndent := by
  fun_induction resolveQuotes cs with
  | case1 => rfl
  | case2 c rest _ ih => rw [List.takeWhile_cons, List.takeWhile_cons, ih]
  | case3 => rfl

/-- A line is blank with the escape resolved if it was blank as written. -/
theorem isBlankLine_resolveQuotes (line : List Char) :
    isBlankLine (resolveQuotes line) = isBlankLine line := by
  unfold isBlankLine
  fun_induction resolveQuotes line with
  | case1 => rfl
  | case2 c rest _ ih => rw [List.all_cons, List.all_cons, ih]
  | case3 => rfl

/-- A line is indented as far as before. -/
theorem indentation_resolveQuotes (line : List Char) :
    indentation (resolveQuotes line) = indentation line :=
  congrArg List.length (takeWhile_resolveQuotes line)

/-- The lines have the same indentation in common as before. -/
theorem commonIndentation_resolveQuotes (lines : List (List Char)) :
    commonIndentation (lines.map resolveQuotes) = commonIndentation lines := by
  have shown : (fun line => !isBlankLine line) ∘ resolveQuotes = fun line => !isBlankLine line :=
    funext fun line => congrArg not (isBlankLine_resolveQuotes line)
  have indented : indentation ∘ resolveQuotes = indentation := funext indentation_resolveQuotes
  rw [commonIndentation, commonIndentation, List.filter_map, List.map_map, shown, indented]

/-- Nothing is escaped in the indentation that is taken off. -/
theorem resolveQuotes_drop {line : List Char} {n : Nat}
    (indented : (line.take n).all isIndent = true) :
    resolveQuotes (line.drop n) = (resolveQuotes line).drop n := by
  induction n generalizing line with
  | zero => rfl
  | succ n ih =>
    cases line with
    | nil => rfl
    | cons c line =>
      rw [List.take_succ_cons, List.all_cons, Bool.and_eq_true] at indented
      have plain : c ≠ '\\' := by
        rintro rfl
        exact absurd indented.1 (by decide)
      rw [List.drop_succ_cons, ih indented.2, resolveQuotes_of_ne plain, List.drop_succ_cons]

/-- The same indentation is taken off each line, and no escape is in it. -/
theorem unindent_resolveQuotes (lines : List (List Char)) :
    unindent (lines.map resolveQuotes) = (unindent lines).map resolveQuotes := by
  cases lines with
  | nil => rfl
  | cons first others =>
    show resolveQuotes first :: (others.map resolveQuotes).map _ = resolveQuotes first :: _
    rw [commonIndentation_resolveQuotes, List.map_map, List.map_map]
    refine congrArg (resolveQuotes first :: ·) (List.map_congr_left fun line hline => ?_)
    exact (resolveQuotes_drop ((isCommon_commonIndentation others).take hline)).symm

/-- The same blank lines are taken off both ends. -/
theorem trimBlankLines_resolveQuotes (lines : List (List Char)) :
    trimBlankLines (lines.map resolveQuotes) = (trimBlankLines lines).map resolveQuotes := by
  have same : isBlankLine ∘ resolveQuotes = isBlankLine := funext isBlankLine_resolveQuotes
  simp only [trimBlankLines, List.dropWhile_map, ← List.map_reverse, same]

/-! ## The decoder -/

/-- The text that is left of some content by the steps of the decoder that come after the escape. -/
theorem resolveQuotes_last (content : List Char) :
    ['\n'].intercalate (trimBlankLines (unindent (textLines (resolveQuotes content))))
      = resolveQuotes (['\n'].intercalate (trimBlankLines (unindent (textLines content)))) := by
  rw [textLines_resolveQuotes, unindent_resolveQuotes, trimBlankLines_resolveQuotes,
    intercalate_resolveQuotes]

/-- What the language says is one text: each step that it asks for has one result, and the decoder's
    functions compute it. -/
theorem documented_iff {content text : List Char} :
    Documented content text
      ↔ text = resolveQuotes (['\n'].intercalate (trimBlankLines (unindent (textLines content)))) := by
  constructor
  · rintro ⟨cut, common, trimmed⟩
    rw [trimmed.eq, ← cut.eq, common.unique (isCommon_commonIndentation _)]
    rfl
  · rintro rfl
    obtain ⟨first, others, same⟩ := List.exists_cons_of_ne_nil (textLines_ne_nil content)
    have cut := cut_textLines content
    rw [same] at cut ⊢
    exact .intro cut (isCommon_commonIndentation others) (trimmed_trimBlankLines _)

end Quoted

/-- A body is its content and the quotes that close it. -/
theorem BlockBody.exists_content {body : List Char} (h : BlockBody body) :
    ∃ content, body = content ++ Quoted.tripleQuote := by
  induction h with
  | close => exact ⟨[], rfl⟩
  | escape _ ih =>
    obtain ⟨content, rfl⟩ := ih
    exact ⟨'\\' :: '"' :: '"' :: '"' :: content, rfl⟩
  | @unit c _ _ _ _ ih =>
    obtain ⟨content, rfl⟩ := ih
    exact ⟨c :: content, rfl⟩

namespace Quoted

/-- The decoder takes what stands between the quotes of a block string for the one text that the
    language takes it for. -/
theorem exists_documented (content : List Char) :
    ∃ denoted, decodeBlock (tripleQuote ++ (content ++ tripleQuote)) = .ok denoted ∧
      ∀ text, Documented content text ↔ text = denoted := by
  rw [decodeBlock, between_append]
  refine ⟨_, rfl, fun text => ?_⟩
  rw [resolveQuotes_last]
  exact documented_iff

end Quoted

/-! ## Tokens -/

/-- The token of a block string holds its content between quotes. -/
theorem Token.exists_content {source : String} {file : Option String} {t : Token}
    (ht : t ∈ (Scan.ofSource source file).tokens) (kind : t.kind = .blockString) :
    ∃ content, t.text.toList = Quoted.tripleQuote ++ (content ++ Quoted.tripleQuote) := by
  obtain ⟨k, language, shown⟩ := exists_language_of_mem_ofSource ht
  rw [kind] at shown
  obtain rfl : k = .blockString := LexemeClass.eq_of_kind shown rfl
  obtain ⟨body, written, units⟩ := language
  obtain ⟨content, rfl⟩ := units.exists_content
  exact ⟨content, written⟩

/-- Block strings are taken and read as the language says.  Jumping from quote to quote through the
    bytes of any text takes the first bytes of it exactly if they are three quotes and a body, read
    unit by unit up to the three quotes that close it; and it takes what the tokenizer takes.  Each
    token of a block string, of any source, holds some content between quotes, and the decoder gives
    the text that the language takes the content for, and it takes it for no other. -/
theorem block_strings_read_as_documented :
    (∀ (text : String) (n : Nat), jumpScan text.toUTF8.data.toList = some n
      ↔ ∃ body after, text.toList = '"' :: '"' :: '"' :: (body ++ after) ∧ BlockBody body ∧
        n = utf8Length ('"' :: '"' :: '"' :: body)) ∧
    (∀ text : String, jumpScan text.toUTF8.data.toList =
      if 0 < blockStringLength text.toList
        then some (utf8Length (text.toList.take (blockStringLength text.toList))) else none) ∧
    (∀ (source : String) (file : Option String), ∀ t ∈ (Scan.ofSource source file).tokens,
      t.kind = .blockString → ∃ content denoted,
        t.text.toList = Quoted.tripleQuote ++ (content ++ Quoted.tripleQuote) ∧
        (StringValue.ofToken t).text = .ok denoted ∧
        ∀ text, Quoted.Documented content text ↔ text = denoted.toList) := by
  refine ⟨fun text n => ?_, fun text => ?_, fun source file t ht kind => ?_⟩
  · -- the jumps find a body exactly where there is one
    show jumpScan text.toByteArray.data.toList = some n ↔ _
    rw [← utf8Bytes_toList]
    exact jumpScan_eq_some_iff
  · -- they find what the tokenizer finds
    show jumpScan text.toByteArray.data.toList = _
    rw [← utf8Bytes_toList]
    exact jumpScan_eq text.toList
  · -- a token of the kind has quotes at both ends, and what is between them is decoded
    obtain ⟨content, written⟩ := t.exists_content ht kind
    obtain ⟨denoted, decoded, documented⟩ := Quoted.exists_documented content
    refine ⟨content, String.ofList denoted, written, ?_, fun text => ?_⟩
    · rw [StringValue.text, StringValue.ofToken, kind]
      show (Quoted.decodeBlock t.text.toList).map String.ofList = _
      rw [written, decoded]
      rfl
    · rw [String.toList_ofList]
      exact documented text

/-- A block string with line ends of all three kinds, lines that are indented, an escape, and blank
    lines at both ends. -/
def indentedBlock : String :=
  "\"\"\"\n  a\\\"\"\"\r\n \n    b\r  \"\"\""

/-- What it stands for has no indentation that both lines share, and three quotes. -/
theorem block_strings_read_as_documented_indentedBlock :
    ∃ t ∈ (Scan.ofSource indentedBlock none).tokens, t.kind = .blockString ∧
      (StringValue.ofToken t).text = .ok "a\"\"\"\n\n  b" ∧
      Quoted.Documented "\n  a\\\"\"\"\r\n \n    b\r  ".toList "a\"\"\"\n\n  b".toList := by
  have met : ∃ t ∈ (Scan.ofSource indentedBlock none).tokens,
      t.kind = .blockString ∧ t.text = indentedBlock := by decide +kernel
  obtain ⟨t, ht, kind, text⟩ := met
  obtain ⟨content, denoted, written, decoded, documented⟩ :=
    block_strings_read_as_documented.2.2 indentedBlock none t ht kind
  have inside : content = "\n  a\\\"\"\"\r\n \n    b\r  ".toList := by
    have split : indentedBlock.toList = Quoted.tripleQuote
        ++ ("\n  a\\\"\"\"\r\n \n    b\r  ".toList ++ Quoted.tripleQuote) := by decide +kernel
    rw [text, split] at written
    exact (List.append_cancel_right (List.append_cancel_left written)).symm
  have value : (StringValue.ofToken t).text = .ok "a\"\"\"\n\n  b" := by
    rw [StringValue.ofToken, kind, text]
    show Quoted.decode true indentedBlock = _
    decide +kernel
  obtain rfl := Except.ok.inj (decoded.symm.trans value)
  exact ⟨t, ht, kind, value, inside ▸ (documented _).mpr rfl⟩

end GraphQL
