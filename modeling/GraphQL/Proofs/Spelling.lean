/-
  In a text, what a token is and how it is written go together.

  A punctuator is written in one way, and the kind of a word is the one that its spelling decides;
  the other kinds leave the text open.  So the sign of a token is known from the demand that it
  meets, or from its text and that demand (`Token.Spelled`), and a document that keeps the texts of
  names and literals keeps their signs.
-/
import GraphQL.Proofs.Lexemes
import GraphQL.Proofs.Signs
import GraphQL.Proofs.TokenOrder

namespace GraphQL

/-- Whether a kind is that of a word. -/
def TokenKind.isWord : TokenKind → Bool
  | .keyword _ => true
  | .identifier => true
  | _ => false

/-- What is found for a word is a kind of words. -/
theorem isWord_ofWord (word : String) : (TokenKind.ofWord word).isWord = true := by
  unfold TokenKind.ofWord
  split <;> rfl

/-- A word is no punctuator. -/
theorem ofWord_ne_punctuator (word : String) (p : Punctuator) :
    TokenKind.ofWord word ≠ .punctuator p := by
  intro same
  have word := isWord_ofWord word
  rw [same] at word
  cases word

/-- The kind of a token tells its class. -/
theorem LexemeClass.eq_of_kind {k l : LexemeClass} {cs : List Char} {kind : TokenKind}
    (hk : k.tokenKind? cs = some kind) (hl : l.tokenKind? cs = some kind) : k = l := by
  have word := isWord_ofWord (String.ofList cs)
  -- a name is the only class with more than one kind, and none of them is the kind of another class
  cases k with
  | word =>
    cases l with
    | word => rfl
    | mark | float | int | blockString | inlineString =>
      rw [Option.some.inj (hk.trans hl.symm)] at word
      cases word
    | _ => cases hl
  | mark | float | int | blockString | inlineString =>
    cases hk
    cases l with
    | word =>
      rw [Option.some.inj hl] at word
      cases word
    | _ => cases hl <;> rfl
  | _ => cases hk

/-- A token as a text can show it. -/
structure Token.Spelled (t : Token) : Prop where
  shown : t.text ≠ ""
  concrete : t.kind.isCategory = false
  mark : ∀ p, t.kind = .punctuator p → t.text = p.text
  word : t.kind.isWord = true → t.kind = .ofWord t.text

/-! ## Tokens of texts -/

/-- No word is a category. -/
theorem isCategory_of_isWord {k : TokenKind} (word : k.isWord = true) : k.isCategory = false := by
  cases k <;> first | rfl | cases word

/-- The tokens of a text are spelled as their kinds ask for. -/
theorem spelled_of_mem_ofSource {source : String} {file : Option String} {t : Token}
    (h : t ∈ (Scan.ofSource source file).tokens) : t.Spelled := by
  obtain ⟨q, hq, ht⟩ := List.mem_filterMap.mp h
  have piece := Placed.piece_of_mem_chain hq
  unfold Placed.token? at ht
  split at ht
  · rename_i kind text hlexeme
    rw [hlexeme] at piece
    obtain ⟨k, hk, rfl⟩ := Option.map_eq_some_iff.mp ht
    have nonempty : text ≠ [] := text_ne_nil_of_mem_pieces piece
    have shown : String.ofList text ≠ "" := fun empty =>
      nonempty (by simpa using congrArg String.toList empty)
    cases kind with
    | mark p =>
      -- a mark is spelled as its punctuator is
      cases hk
      refine ⟨shown, rfl, fun p' same => ?_, nofun⟩
      cases same
      show String.ofList text = p.text
      have written : text = p.text.toList := LexemeClass.language_of_mem_pieces piece
      rw [written, String.ofList_toList]
    | word =>
      -- a name or keyword is of a kind for words, which no punctuator is
      cases hk
      exact ⟨shown, isCategory_of_isWord (isWord_ofWord _),
        fun p same => absurd same (ofWord_ne_punctuator _ p), fun _ => rfl⟩
    -- the other kinds are neither punctuators nor words
    | float => cases hk; exact ⟨shown, rfl, nofun, nofun⟩
    | int => cases hk; exact ⟨shown, rfl, nofun, nofun⟩
    | blockString => cases hk; exact ⟨shown, rfl, nofun, nofun⟩
    | inlineString => cases hk; exact ⟨shown, rfl, nofun, nofun⟩
    | _ => cases hk
  · cases ht

/-! ## Signs by demands -/

namespace Token.Spelled

variable {t : Token}

/-- What is met without a category is the kind itself. -/
theorem kind_of_meets {demand : TokenKind} (met : t.meets demand = true)
    (concrete : demand.isCategory = false) : t.kind = demand := by
  unfold Token.meets TokenKind.satisfies at met
  cases demand <;> simp_all [TokenKind.isCategory]

theorem sign_of_meets {demand : TokenKind} (met : t.meets demand = true)
    (concrete : demand.isCategory = false) : t.sign = (demand, t.text) := by
  rw [Token.sign, kind_of_meets met concrete]

theorem sign_of_mark (h : t.Spelled) {p : Punctuator} (met : t.meets (.punctuator p) = true) :
    t.sign = p.sign := by
  rw [sign_of_meets met rfl, h.mark p (kind_of_meets met rfl)]
  rfl

/-- A keyword is written in one way. -/
theorem text_of_keyword (h : t.Spelled) {k : Keyword} (kind : t.kind = .keyword k) :
    t.text = k.text := by
  have found : TokenKind.ofWord t.text = .keyword k := by rw [← h.word (by rw [kind]; rfl), kind]
  unfold TokenKind.ofWord at found
  split at found
  · rename_i k' hk
    cases found
    exact (eq_of_beq (by simpa using List.find?_some hk)).symm
  · cases found

theorem sign_of_word (h : t.Spelled) {w : Word} (met : t.meets (.keyword (.word w)) = true) :
    t.sign = w.sign := by
  rw [sign_of_meets met rfl, h.text_of_keyword (kind_of_meets met rfl)]
  rfl

/-- A word is named by its text. -/
theorem sign_of_isWord (h : t.Spelled) (word : t.kind.isWord = true) : t.sign = nameSign t.text := by
  rw [Token.sign, h.word word]
  rfl

/-- What meets a category of names is a word. -/
theorem sign_of_name (h : t.Spelled) {c : Category} (met : t.meets (.category c) = true)
    (name : c ≠ .string) : t.sign = nameSign t.text := by
  refine h.sign_of_isWord ?_
  have isIn : t.kind.isIn c = true := by
    have concrete := h.concrete
    unfold Token.meets TokenKind.satisfies at met
    rcases Bool.or_eq_true_iff.mp met with same | isIn
    · rw [eq_of_beq same] at concrete
      cases concrete
    · exact isIn
  cases kind : t.kind <;> rw [kind] at isIn <;> first | rfl | (cases c <;> simp_all [TokenKind.isIn])

theorem sign_of_location (h : t.Spelled) {l : Location}
    (met : t.meets (.keyword (.location l)) = true) : t.sign = nameSign t.text :=
  h.sign_of_isWord (by rw [kind_of_meets met rfl]; rfl)

/-- What meets the category of strings is a string literal of either form. -/
theorem sign_of_string (h : t.Spelled) (met : t.meets (.category .string) = true) :
    t.sign = (if t.kind == .blockString then .blockString else .inlineString, t.text) := by
  have concrete := h.concrete
  unfold Token.meets TokenKind.satisfies at met
  cases kind : t.kind <;> simp_all [Token.sign, TokenKind.isIn, TokenKind.isCategory]

end Token.Spelled

end GraphQL
