/-
  Block strings that are never closed.

  Three quotes that open a block string which is closed nowhere are no block string, and then they
  are looked at again as what else begins with a quote.  The crux is that the first two of them are
  always a lexeme by themselves, an empty inline string (`first?_of_unclosed`).  So what is reported
  is decided at the third quote alone: what stands from there on is no block string either, and it
  is astray unless it happens to be an inline string (`first?_quote`).

  What is proved about a text from some place on is proved for the places where the lexer looks for
  a lexeme (`Reaches`): the quotes within a comment or a string open nothing.
-/
import GraphQL.Proofs.Placement
import GraphQL.Proofs.Relexing

namespace GraphQL

/-! ## Where a lexeme is looked for -/

/-- The rests of a text in front of which a lexeme is looked for: the text itself, and further on
    the rests behind the lexeme that is found there, or behind one character if none is. -/
inductive Reaches : List Char → List Char → Prop where
  | here {cs : List Char} : Reaches cs cs
  | lexeme {k : LexemeClass} {cs rest : List Char} (found : LexemeClass.first? cs = some k)
      (further : Reaches (cs.drop (k.measure cs)) rest) : Reaches cs rest
  | stray {c : Char} {cs rest : List Char} (none : LexemeClass.first? (c :: cs) = none)
      (further : Reaches cs rest) : Reaches (c :: cs) rest

/-- Where no lexeme begins a character is stray, and joins the stray ones behind it. -/
theorem pieces_of_first?_eq_none {c : Char} {cs : List Char}
    (h : LexemeClass.first? (c :: cs) = none) :
    pieces (c :: cs) = Piece.consStray c (pieces cs) := by
  rw [pieces]
  split
  · rename_i found
    rw [h] at found
    cases found
  · rfl

/-- A stray character is put in front of all pieces by putting it in front of the first ones, unless
    there are none and others begin with a run of stray characters. -/
theorem Piece.consStray_append (c : Char) (ps : List Piece) {qs : List Piece}
    (lexeme : ∀ q ∈ qs.head?, q.isStray = false) :
    consStray c (ps ++ qs) = consStray c ps ++ qs := by
  cases ps with
  | nil =>
    cases qs with
    | nil => rfl
    | cons q qs =>
      cases q with
      | lexeme => rfl
      | stray => cases lexeme _ rfl
  | cons p ps => cases p <;> rfl

/-- A stray character begins the first piece. -/
theorem Piece.exists_consStray (c : Char) (ps : List Piece) :
    ∃ text others, consStray c ps = .stray (c :: text) :: others := by
  cases ps with
  | nil => exact ⟨_, _, rfl⟩
  | cons p ps => cases p <;> exact ⟨_, _, rfl⟩

/-- Where a lexeme is looked for and found, the pieces of the text go on with those of the rest. -/
theorem Reaches.exists_pieces {cs rest : List Char} (h : Reaches cs rest)
    (found : (LexemeClass.first? rest).isSome = true) :
    ∃ before, pieces cs = before ++ pieces rest ∧ cs = (before.map Piece.text).flatten ++ rest := by
  induction h with
  | here => exact ⟨[], rfl, rfl⟩
  | @lexeme k cs rest first _ ih =>
    -- a lexeme on the way is a piece
    obtain ⟨before, same, text⟩ := ih found
    refine ⟨.lexeme k (cs.take (k.measure cs)) :: before, ?_, ?_⟩
    · rw [pieces_of_first? first, same]
      rfl
    · rw [List.map_cons, List.flatten_cons, List.append_assoc, ← text]
      exact (List.take_append_drop ..).symm
  | @stray c cs rest none _ ih =>
    -- a stray character on the way joins the stray ones behind it, and what begins with a lexeme
    -- stays apart
    obtain ⟨before, same, text⟩ := ih found
    obtain ⟨k, first⟩ := Option.isSome_iff_exists.mp found
    refine ⟨Piece.consStray c before, ?_, ?_⟩
    · rw [pieces_of_first?_eq_none none, same]
      refine Piece.consStray_append c before fun q hq => ?_
      rw [pieces_of_first? first] at hq
      cases hq
      rfl
    · rw [Piece.flatten_consStray, List.cons_append, ← text]

namespace Placed

/-- Of pieces that stand side by side each is placed behind the text of those before it. -/
theorem mem_chain {front : List Char} {before after : List Piece} {p : Piece}
    (beside : (before ++ p :: after).IsChain Piece.Beside)
    (nonempty : ∀ q ∈ before ++ p :: after, q.text ≠ [])
    (joint : ∀ q ∈ (before ++ p :: after).head?, Joint front q.text) :
    (⟨p, .behind (front ++ (before.map Piece.text).flatten),
      .behind (front ++ (before.map Piece.text).flatten ++ p.text)⟩ : Placed)
        ∈ chain (.behind front) (before ++ p :: after) := by
  -- each piece is placed behind the text of those before it
  induction before generalizing front with
  | nil =>
    have further := Position.advance_behind (joint p rfl)
    rw [List.map_nil, List.flatten_nil, List.append_nil, List.nil_append, chain, further]
    exact List.mem_cons_self
  | cons q before ih =>
    have further := Position.advance_behind (joint q rfl)
    obtain ⟨next, others⟩ := List.isChain_cons.mp beside
    have first := nonempty q List.mem_cons_self
    rw [List.map_cons, List.flatten_cons, ← List.append_assoc, List.cons_append, chain, further]
    exact List.mem_cons_of_mem _ <|
      ih others (fun r hr => nonempty r (List.mem_cons_of_mem _ hr))
        fun r hr => (next r hr).1.append_left first front

/-- The pieces of a text are placed behind the text before them. -/
theorem mem_chain_pieces {cs : List Char} {before after : List Piece} {p : Piece}
    (same : pieces cs = before ++ p :: after) :
    (⟨p, .behind (before.map Piece.text).flatten,
      .behind ((before.map Piece.text).flatten ++ p.text)⟩ : Placed) ∈ chain {} (pieces cs) := by
  have beside := isChain_pieces cs
  have nonempty : ∀ q ∈ pieces cs, q.text ≠ [] := fun q => text_ne_nil_of_mem_pieces
  rw [same] at beside nonempty ⊢
  have joint : ∀ q ∈ (before ++ p :: after).head?, Joint [] q.text := fun _ _ h => nomatch h.1
  have placed := mem_chain beside nonempty joint
  rwa [List.nil_append] at placed

end Placed

/-! ## What begins with a quote -/

namespace LexemeClass

/-- Only strings begin with a quote. -/
theorem string_of_quote {k : LexemeClass} {cs : List Char} (h : 0 < k.measure ('"' :: cs)) :
    k = .blockString ∨ k = .inlineString := by
  have family : k.family = .inlineString := Option.some.inj (lead_eq h).symm
  cases k with
  | blockString => exact .inl rfl
  | inlineString => exact .inr rfl
  | _ => cases family

/-- From a quote that opens no block string an inline string is found, if there is one. -/
theorem first?_quote {cs : List Char} (noBlock : blockStringLength ('"' :: cs) = 0) :
    first? ('"' :: cs)
      = if 0 < inlineStringLength ('"' :: cs) then some .inlineString else none := by
  have sole : ∀ k : LexemeClass, 0 < k.measure ('"' :: cs) → k = .inlineString := by
    intro k measured
    rcases string_of_quote measured with rfl | rfl
    · exact absurd measured (Nat.not_lt.mpr (Nat.le_of_eq noBlock))
    · rfl
  split
  · rename_i inline
    exact first?_eq_some (List.append_nil _).symm (by decide) inline fun k _ _ => sole k
  · rename_i noInline
    refine List.find?_eq_none.mpr fun k _ measured => noInline ?_
    have measured : 0 < k.measure ('"' :: cs) := of_decide_eq_true measured
    rwa [sole k measured] at measured

/-- The first two of three quotes that open no block string are an empty inline string. -/
theorem first?_of_unclosed {rest : List Char} (unclosed : blockBodyLength rest = none) :
    first? ('"' :: '"' :: '"' :: rest) = some .inlineString := by
  have noBlock : blockStringLength ('"' :: '"' :: '"' :: rest) = 0 := by
    rw [blockStringLength, unclosed]
  rw [first?_quote noBlock]
  rfl

/-- Where a block string is not closed, its last opening quote opens none either: two quotes behind
    that one would leave a body that is not closed. -/
theorem blockStringLength_of_unclosed {rest : List Char} (unclosed : blockBodyLength rest = none) :
    blockStringLength ('"' :: rest) = 0 := by
  -- three quotes in a row would open a block string, and neither of the last two closes it at once
  by_cases opens : ∃ body, rest = '"' :: '"' :: body
  · obtain ⟨body, rfl⟩ := opens
    have noEscape : ∀ cs, ¬ ['\\', '"', '"', '"'] <+: '"' :: cs := by
      rintro cs ⟨after, same⟩
      cases same
    have noClose : ∀ cs, ['"', '"', '"'] <+: cs → blockBodyLength cs = some 3 := by
      rintro cs ⟨after, rfl⟩
      rfl
    have first : ¬ ['"', '"', '"'] <+: '"' :: '"' :: body := fun close => by
      rw [noClose _ close] at unclosed
      cases unclosed
    have second : ¬ ['"', '"', '"'] <+: '"' :: body := by
      rintro ⟨after, same⟩
      obtain ⟨-, rfl⟩ := List.cons.inj same
      exact first ⟨'"' :: after, rfl⟩
    rw [blockBodyLength_unit first (noEscape _), blockBodyLength_unit second (noEscape _),
      Option.map_eq_none_iff, Option.map_eq_none_iff] at unclosed
    rw [blockStringLength, unclosed]
  · -- with fewer quotes no block string is opened
    unfold blockStringLength
    split
    · rename_i body same
      exact absurd ⟨body, (List.cons.inj same).2⟩ opens
    · rfl

end LexemeClass

/-! ## What is reported -/

/-- A block string that is not closed, where a lexeme is looked for.  Its first two quotes are taken
    for an empty inline string.  From the third one on either an inline string is taken, and nothing
    is reported, or the third quote is reported as astray. -/
theorem open_block_string (source : String) (file : Option String) {front rest : List Char}
    (split : source.toList = front ++ '"' :: '"' :: '"' :: rest)
    (reached : Reaches source.toList ('"' :: '"' :: '"' :: rest))
    (unclosed : blockBodyLength rest = none) :
    (∃ t ∈ (Scan.ofSource source file).tokens, t.kind = .inlineString ∧ t.text = "\"\"" ∧
      t.span = ⟨.behind front, .behind (front ++ ['"', '"']), file⟩) ∧
    match inlineBodyLength rest with
    | some n => ∃ t ∈ (Scan.ofSource source file).tokens, t.kind = .inlineString ∧
        t.text = String.ofList ('"' :: rest.take n) ∧
        t.span.start = .behind (front ++ ['"', '"'])
    | none => ∃ e ∈ (Scan.ofSource source file).errors, e.first = '"' ∧
        e.span.start = .behind (front ++ ['"', '"']) := by
  have first := LexemeClass.first?_of_unclosed unclosed
  obtain ⟨before, same, text⟩ := reached.exists_pieces (by rw [first]; rfl)
  obtain rfl : front = (before.map Piece.text).flatten :=
    List.append_cancel_right (split.symm.trans text)
  have same : pieces source.toList
      = before ++ .lexeme .inlineString ['"', '"'] :: pieces ('"' :: rest) := by
    rw [same, pieces_of_first? first]
    rfl
  refine ⟨⟨_, List.mem_filterMap.mpr ⟨_, Placed.mem_chain_pieces same, rfl⟩, rfl, rfl, rfl⟩, ?_⟩
  -- behind the first two quotes the third one opens an inline string
  have third := LexemeClass.first?_quote (LexemeClass.blockStringLength_of_unclosed unclosed)
  have place : ((before ++ [Piece.lexeme .inlineString ['"', '"']]).map Piece.text).flatten
      = (before.map Piece.text).flatten ++ ['"', '"'] := by
    rw [List.map_append, List.flatten_append]
    rfl
  rw [List.append_cons] at same
  cases scanned : inlineBodyLength rest with
  | some n =>
    -- it is closed: a token with what the inline scanner takes
    have length : inlineStringLength ('"' :: rest) = n + 1 := by
      rw [inlineStringLength, scanned]
      exact Nat.add_comm 1 n
    rw [length, if_pos (Nat.succ_pos n)] at third
    rw [pieces_of_first? third] at same
    have token := Placed.mem_chain_pieces same
    rw [place] at token
    refine ⟨_, List.mem_filterMap.mpr ⟨_, token, rfl⟩, rfl, ?_, rfl⟩
    show String.ofList (('"' :: rest).take (inlineStringLength ('"' :: rest))) = _
    rw [length, List.take_succ_cons]
  | none =>
    -- it is not closed: the quote is a stray character
    have length : inlineStringLength ('"' :: rest) = 0 := by
      rw [inlineStringLength, scanned]
    rw [length, if_neg (Nat.lt_irrefl 0)] at third
    obtain ⟨text, others, astray⟩ := Piece.exists_consStray '"' (pieces rest)
    rw [pieces_of_first?_eq_none third, astray] at same
    have error := Placed.mem_chain_pieces same
    rw [place] at error
    exact ⟨_, List.mem_filterMap.mpr ⟨_, error, rfl⟩, rfl, rfl⟩

/-- Three quotes in a comment, which open nothing, and then three that open a block string. -/
def openSource : String := "#\"\"\"\n\"\"\"a\n"

/-- It is not closed, and the last of its quotes is astray. -/
theorem open_block_string_astray :
    blockBodyLength ['a', '\n'] = none ∧
      ∃ e ∈ (Scan.ofSource openSource).errors, e.first = '"' ∧ e.span.start.offset = 7 := by
  have unclosed : blockBodyLength ['a', '\n'] = none := by decide
  have reached : Reaches openSource.toList ['"', '"', '"', 'a', '\n'] :=
    .lexeme (k := .comment) (by decide +kernel) (.lexeme (k := .lineEnd) (by decide +kernel) .here)
  have split : openSource.toList
      = ['#', '"', '"', '"', '\n'] ++ '"' :: '"' :: '"' :: ['a', '\n'] := by decide +kernel
  obtain ⟨-, e, he, first, start⟩ := open_block_string openSource none split reached unclosed
  refine ⟨unclosed, e, he, first, ?_⟩
  rw [start]
  rfl

/-- A block string that is not closed and of which nothing is reported: the quote in it closes an
    inline string. -/
theorem open_block_string_unreported :
    ∃ front rest, "\"\"\"a\"".toList = front ++ '"' :: '"' :: '"' :: rest ∧
      Reaches "\"\"\"a\"".toList ('"' :: '"' :: '"' :: rest) ∧ blockBodyLength rest = none ∧
      (Scan.ofSource "\"\"\"a\"").errors = [] :=
  ⟨[], ['a', '"'], by decide +kernel, .here, by decide, by decide +kernel⟩

end GraphQL
