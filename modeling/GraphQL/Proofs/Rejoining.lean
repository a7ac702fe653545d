/-
  What stands between tokens does not matter.

  Cut a text into its tokens and join them again by other separators.  The new text lexes to the same
  tokens (`lexesTo_of_joins`), save for their places.  Alike tokens give alike parses (`parse_alike`),
  and alike trees give alike documents (`ofTree_alike`).  Nothing is asked of the first text: what was
  astray in it is left out when its tokens are joined, and the mistakes that the parser finds in it are
  found again.
-/
import GraphQL.Proofs.BuildingDocument
import GraphQL.Proofs.ForgettingDocument
import GraphQL.Proofs.Relexing

namespace GraphQL

/-- Tokens with a gap behind each of them, the same for all. -/
def spaced (gap : List Char) (tokens : List Token) : List Char :=
  tokens.flatMap fun t => t.text.toList ++ gap

/-- Any separator that is not empty joins any tokens. -/
theorem joins_spaced {gap : List Char} (separator : Separator gap) (apart : gap ≠ [])
    (tokens : List Token) : Joins (spaced gap tokens) tokens := by
  induction tokens with
  | nil => exact .nil
  | cons t rest ih =>
    have joined := Joins.cons t separator apart ih
    rwa [← List.append_assoc] at joined

/-- Without its place a mistake still shows its fault, so alike mistakes are of the same kinds. -/
theorem faults_of_alike {errors errors' : List SyntaxError}
    (alike : errors.map SyntaxError.unplaced = errors'.map SyntaxError.unplaced) :
    errors.map SyntaxError.fault = errors'.map SyntaxError.fault := by
  have faults := congrArg (List.map SyntaxError.fault) alike
  rwa [List.map_map, List.map_map] at faults

/-- Ignored text does not matter.  Take any text, valid or broken, and join its tokens by any
    separators, not empty between two tokens; one may stand in front, and one at the end.  The new
    text has no lexical error and has the same tokens, in their kinds and texts; the parser finds
    the same mistakes in it, in the same order; and it is made into the same document, save for
    places. -/
theorem separators_insignificant {g : Grammar} (standard : Standard.grammar? = .ok g)
    (source joined : String) (file file' : Option String) {before rest : List Char}
    (opening : Separator before) (joins : Joins rest (Scan.ofSource source file).tokens)
    (text : joined.toList = before ++ rest) :
    (Scan.ofSource joined file').errors = [] ∧
      (Scan.ofSource joined file').tokens.map Token.sign
        = (Scan.ofSource source file).tokens.map Token.sign ∧
      (g.readSource joined file').errors.map SyntaxError.fault
        = (g.readSource source file).errors.map SyntaxError.fault ∧
      (g.readSource joined file').errors.map SyntaxError.unplaced
        = (g.readSource source file).errors.map SyntaxError.unplaced ∧
      ∃ d d' : Document, (g.readSource source file).document = .ok d ∧
        (g.readSource joined file').document = .ok d' ∧ d'.unplaced = d.unplaced := by
  have lexes : LexesTo joined.toList ((Scan.ofSource source file).tokens.map Token.sign) := by
    rw [text]
    exact opening.lexesTo (lexesTo_of_joins joins fun t => exists_language_of_mem_ofSource)
  obtain ⟨clean, signs⟩ := lexes.scan file'
  have alike := parse_alike g .document .tree signs
  have errors : (g.readSource joined file').errors.map SyntaxError.unplaced
      = (g.readSource source file).errors.map SyntaxError.unplaced :=
    congrArg Grammar.Parse.errors alike
  have trees : (g.readSource joined file').tree.map Node.unplaced
      = (g.readSource source file).tree.map Node.unplaced :=
    congrArg Grammar.Parse.tree alike
  refine ⟨clean, signs, faults_of_alike errors, errors, ?_⟩
  obtain rfl : Standard.grammar = g := Except.ok.inj (Standard.grammar?_eq.symm.trans standard)
  -- both texts are read as documents, so the makings that echo each other both succeed
  have reads : ∀ source file, ∃ tree,
      (Standard.grammar.readSource source file).tree = some tree ∧ Reads .document tree := by
    intro source file
    obtain ⟨tree, found, rule, conforms⟩ :=
      exists_conforming_tree Standard.finish_eq .document (Scan.ofSource source file).tokens
    exact ⟨tree, (tree_readSource ..).trans found, rule, conforms⟩
  obtain ⟨tree, found, shape⟩ := reads source file
  obtain ⟨tree', found', shape'⟩ := reads joined file'
  obtain ⟨d, made⟩ := Document.ofTree_succeeds shape
  obtain ⟨d', made'⟩ := Document.ofTree_succeeds shape'
  refine ⟨d, d', ?_, ?_, ?_⟩
  · rw [Reading.document, found]
    exact made
  · rw [Reading.document, found']
    exact made'
  · rw [found, found'] at trees
    have documents := ofTree_alike (Option.some.inj trees)
    rw [made, made'] at documents
    exact Except.ok.inj documents

/-- A broken text whose tokens touch: letters behind a number, and three quotes that open no block
    string. -/
def crowdedSource : String := "\x7ba(b:1c\"\"\"d)\x7d"

/-- Its tokens with a comment behind each, in which stands a quote. -/
def commentedSource : String :=
  "\uFEFF,\x7b#\"\na#\"\n(#\"\nb#\"\n:#\"\n1#\"\nc#\"\n\"\"#\"\nd#\"\n)#\"\n\x7d#\"\n"

set_option maxRecDepth 100000 in
/-- In that text a quote is astray and a word stands where its colon is due; the comments bring the
    one in order and leave the other. -/
theorem separators_insignificant_crowded :
    (Scan.ofSource crowdedSource).errors.map LexicalError.first = ['"'] ∧
      (Standard.grammar.readSource crowdedSource).errors ≠ [] ∧
      (Scan.ofSource commentedSource).errors = [] ∧
      (Scan.ofSource commentedSource).tokens.map Token.sign
        = (Scan.ofSource crowdedSource).tokens.map Token.sign ∧
      (Standard.grammar.readSource commentedSource).errors.map SyntaxError.fault
        = (Standard.grammar.readSource crowdedSource).errors.map SyntaxError.fault ∧
      ∃ d d' : Document, (Standard.grammar.readSource crowdedSource).document = .ok d ∧
        (Standard.grammar.readSource commentedSource).document = .ok d' ∧
        d'.unplaced = d.unplaced := by
  have astray : (Scan.ofSource crowdedSource).errors.map LexicalError.first = ['"'] := by
    decide +kernel
  have broken : (Standard.grammar.readSource crowdedSource).errors ≠ [] := by decide +kernel
  have separator : Separator ('#' :: (['"'] ++ '\n' :: [])) :=
    .comment (List.forall_mem_singleton.mpr (by decide)) (.inl rfl) .nil
  have text : commentedSource.toList = ['\uFEFF', ',']
      ++ spaced ['#', '"', '\n'] (Scan.ofSource crowdedSource).tokens := by
    decide +kernel
  obtain ⟨clean, signs, faults, -, documents⟩ :=
    separators_insignificant Standard.grammar?_eq crowdedSource commentedSource none none
      (.mark (by decide) (.mark (by decide) .nil)) (joins_spaced separator nofun _) text
  exact ⟨astray, broken, clean, signs, faults, documents⟩

end GraphQL
