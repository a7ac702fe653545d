/-
  No token is lost silently.

  A reading uses up tokens from the front of the input.  Each of them is filed in the tree or left
  out, and tokens are left out in stretches: one by deletion, some by a repetition that looks for
  its next round, some by a rule that is given up, all the others when the parse ends early.  A
  stretch may follow another.  What holds for all of them is that the first token of a stretch was
  marked by a mistake when the stretch was left out; `Accounted` says so about a whole list, and the
  list of mistakes only grows.

  A run that does not end as it should leaves its last mistake at the next token
  (`Run.settles`).  So whatever is left out after it is accounted for as well, however many rules
  are given up on the way.
-/
import GraphQL.Proofs.Run
import GraphQL.Proofs.StandardGrammar
import GraphQL.Proofs.TokenOrder
import GraphQL.Proofs.TreeContents
import GraphQL.Reading

namespace GraphQL

/-! ## Accounts -/

/-- Some mistake was recorded at the token: it has its span and shows its text. -/
def Marked (errors : List SyntaxError) (t : Token) : Prop :=
  ∃ e ∈ errors, e.span = t.span ∧ e.fault.found = t.text

/-- The next token is marked, if one is left. -/
def MarkedHead (errors : List SyntaxError) (tokens : List Token) : Prop :=
  ∀ t ∈ tokens.head?, Marked errors t

/-- Tokens of which some are kept and the others left out, in stretches that each begin with a
    marked token. -/
inductive Accounted (errors : List SyntaxError) : (tokens kept : List Token) → Prop where
  | nil : Accounted errors [] []
  | keep (t : Token) {tokens kept : List Token} (others : Accounted errors tokens kept) :
      Accounted errors (t :: tokens) (t :: kept)
  | drop {t : Token} (stretch : List Token) {tokens kept : List Token} (marked : Marked errors t)
      (others : Accounted errors tokens kept) :
      Accounted errors (t :: (stretch ++ tokens)) kept

theorem markedHead_nil {errors : List SyntaxError} : MarkedHead errors [] :=
  fun _ h => by cases h

namespace Accounted

variable {errors more : List SyntaxError} {tokens kept tokens' kept' : List Token}

/-- Tokens that are accounted for in two halves are accounted for together. -/
theorem append (h : Accounted errors tokens kept) (h' : Accounted errors tokens' kept') :
    Accounted errors (tokens ++ tokens') (kept ++ kept') := by
  induction h with
  | nil => exact h'
  | keep t _ ih => exact .keep t ih
  | drop stretch marked _ ih =>
    rw [List.cons_append, List.append_assoc]
    exact .drop stretch marked ih

/-- More mistakes account for the same tokens. -/
theorem mono (h : Accounted errors tokens kept) (grow : errors ⊆ more) :
    Accounted more tokens kept := by
  induction h with
  | nil => exact .nil
  | keep t _ ih => exact .keep t ih
  | drop stretch marked _ ih =>
    obtain ⟨e, he, at'⟩ := marked
    exact .drop stretch ⟨e, grow he, at'⟩ ih

/-- One stretch, which may be empty. -/
theorem dropped (h : MarkedHead errors tokens) : Accounted errors tokens [] := by
  cases tokens with
  | nil => exact .nil
  | cons t rest =>
    have none : Accounted errors [] [] := .nil
    simpa using drop rest (h t rfl) none

theorem sublist (h : Accounted errors tokens kept) : kept.Sublist tokens := by
  induction h with
  | nil => exact .slnil
  | keep t _ ih => exact ih.cons_cons t
  | drop stretch _ _ ih => exact (ih.trans (List.sublist_append_right ..)).cons _

/-- Where tokens begin to be missing, a mistake was recorded.  Induction on the account: what stands
    before the token begins with a kept token or with a whole stretch, and neither the token nor the
    one before it is part of a stretch that goes on. -/
theorem marked_of_not_mem (h : Accounted errors tokens kept) (once : tokens.Nodup)
    {before after : List Token} {t : Token} (split : tokens = before ++ t :: after)
    (missing : t ∉ kept) (begins : ∀ u ∈ before.getLast?, u ∈ kept) : Marked errors t := by
  induction h generalizing before with
  | nil => cases before <;> cases split
  | @keep u tokens kept others ih =>
    obtain ⟨fresh, once⟩ := List.nodup_cons.mp once
    cases before with
    | nil =>
      cases split
      exact absurd List.mem_cons_self missing
    | cons v before =>
      obtain ⟨rfl, htokens⟩ : u = v ∧ tokens = before ++ t :: after := by simpa using split
      refine ih once htokens (fun h => missing (List.mem_cons_of_mem _ h)) fun w hw => ?_
      have hmem : w ∈ tokens := htokens ▸ List.mem_append_left _ (List.mem_of_getLast? hw)
      rcases List.mem_cons.mp (begins w (List.mem_getLast?_cons hw)) with rfl | hkept
      · exact absurd hmem fresh
      · exact hkept
  | @drop u stretch tokens kept marked others ih =>
    have once' : ((u :: stretch) ++ tokens).Nodup := once
    have split' : (u :: stretch) ++ tokens = before ++ t :: after := split
    obtain ⟨-, onceTokens, apart⟩ := List.nodup_append.mp once'
    rcases List.append_eq_append_iff.mp split' with ⟨more, rfl, htokens⟩ | ⟨more, hstretch, -⟩
    · refine ih onceTokens htokens missing fun w hw => begins w ?_
      exact List.mem_getLast?_append_of_mem_getLast? hw
    · cases before with
      | nil =>
        cases split
        exact marked
      | cons v before =>
        -- the token before `t` is in the stretch, so it is not kept
        obtain ⟨w, hw⟩ : ∃ w, (v :: before).getLast? = some w :=
          Option.isSome_iff_exists.mp (by simp)
        have inStretch : w ∈ u :: stretch :=
          hstretch ▸ List.mem_append_left _ (List.mem_of_getLast? hw)
        exact absurd rfl (apart w inStretch w (others.sublist.subset (begins w hw)))

end Accounted

/-! ## Marks of a run -/

section Marks

variable {c : Context} {s s' : State} {rest : List Token}

/-- A mistake that is recorded at the next token and shows its text marks it. -/
theorem markedHead_next {errors : List SyntaxError} {fault : Fault} {stack : List Rule}
    (shown : fault.found = (c.next rest).text) :
    MarkedHead (errors ++ [⟨fault, (c.next rest).span, stack⟩]) rest := by
  intro t ht
  have found : c.next rest = t := by
    rw [Context.next, List.headD_eq_head?_getD, Option.mem_def.mp ht]
    rfl
  rw [found] at shown ⊢
  exact ⟨_, List.mem_append_right _ (List.mem_singleton_self _), rfl, shown⟩

theorem markedHead_record {fault : Fault} (shown : fault.found = (c.next s.rest).text) :
    MarkedHead (c.record fault (c.next s.rest) s).errors.toList s.rest := by
  rw [errors_record]
  exact markedHead_next shown

/-- If the next token is marked, each stretch from it on begins with a marked token. -/
theorem MarkedHead.of_append {errors : List SyntaxError} {dropped others : List Token}
    (h : MarkedHead errors rest) (split : rest = dropped ++ others) :
    MarkedHead errors dropped := by
  subst split
  intro t ht
  cases dropped with
  | nil => cases ht
  | cons u dropped => exact h t ht

end Marks

/-! ## What a run does with the tokens -/

/-- The tokens of a list that were not put in. -/
def standing (tokens : List Token) : List Token := tokens.filter fun t => !t.inserted

@[simp] theorem standing_append (ts us : List Token) :
    standing (ts ++ us) = standing ts ++ standing us := List.filter_append ..

/-- From one state to another, `taken` is used up, and of these tokens exactly `kept` are filed,
    apart from those put in; the others are accounted for. -/
structure Settles (s s' : State) (taken kept : List Token) : Prop where
  rest : s.rest = taken ++ s'.rest
  accounted : Accounted s'.errors.toList taken kept
  filed : (standing (leavesOfParts s'.parts.toList)).Perm
    (standing (leavesOfParts s.parts.toList) ++ standing kept)

namespace Settles

variable {c : Context} {s mid s' inner : State} {taken kept more moreKept dropped : List Token}

/-- Tokens are left out; nothing is filed. -/
theorem drop (hrest : s.rest = dropped ++ s'.rest) (hparts : s'.parts = s.parts)
    (marked : MarkedHead s'.errors.toList dropped) : Settles s s' dropped [] where
  rest := hrest
  accounted := .dropped marked
  filed := by simp [hparts, standing]

/-- No token is used up and nothing is filed. -/
theorem idle (hrest : s'.rest = s.rest) (hparts : s'.parts = s.parts) : Settles s s' [] [] :=
  drop hrest.symm hparts markedHead_nil

/-- What is settled in two steps is settled in one, if the mistakes of the first are kept. -/
theorem trans (h₁ : Settles s mid taken kept) (h₂ : Settles mid s' more moreKept)
    (grow : mid.errors.toList ⊆ s'.errors.toList) :
    Settles s s' (taken ++ more) (kept ++ moreKept) where
  rest := by rw [h₁.rest, h₂.rest, List.append_assoc]
  accounted := (h₁.accounted.mono grow).append h₂.accounted
  filed := by
    rw [standing_append, ← List.append_assoc]
    exact h₂.filed.trans (h₁.filed.append_right _)

/-- The next token is taken under a demand. -/
theorem take {t : Token} {rest : List Token} (hrest : s.rest = t :: rest) (tree : c.mode = .tree)
    (kind : TokenKind) : Settles s (c.take kind s) [t] [t] where
  rest := by simp [hrest]
  accounted := .keep t .nil
  filed := by simp [tree, Mode.kept, Context.next, hrest]

/-- A missing token is put in. -/
theorem insert (tree : c.mode = .tree) (kind : TokenKind) :
    Settles s ((c.recordMismatch kind s).file c.mode
      (.token kind, .token (.missing kind (c.next s.rest)))) [] [] where
  rest := by simp
  accounted := .nil
  filed := by simp [tree, Mode.kept, standing, Token.missing]

/-- What a rule has read is filed as one node by the rule that called it. -/
theorem close (h : Settles { s with parts := #[] } inner taken kept) (tree : c.mode = .tree)
    (rule : Rule) (recovered : Bool) : Settles s (c.close rule recovered s inner) taken kept where
  rest := by rw [rest_close]; exact h.rest
  accounted := by rw [errors_close]; exact h.accounted
  filed := by
    have leaves := (Node.leaves_ofParts rule inner.parts.toList recovered).filter
      fun t => !t.inserted
    rw [parts_close, tree, Mode.kept, leavesOfParts_append, leavesOfParts_node, standing_append]
    exact (leaves.trans h.filed).append_left _

end Settles

section Settling

variable {g : Grammar} {n : Nat} {c : Context} {plan : Plan} {s s' : State} {ending : Ending}

theorem Run.errors_subset (h : Run g n c plan s s' ending) :
    s.errors.toList ⊆ s'.errors.toList := by
  obtain ⟨more, hm, -⟩ := h.errors_extend
  exact hm ▸ List.subset_append_left ..

/-- Tokens are left out up to the point of resumption. -/
theorem Context.exists_append_resyncPoint (c : Context) (rest : List Token) :
    ∃ dropped, rest = dropped ++ c.resyncPoint rest :=
  ⟨_, (List.takeWhile_append_dropWhile ..).symm⟩

/-- A repetition that goes on after a mistake has left out a marked stretch or none. -/
theorem settles_of_recover {ahead : Lookahead} {after : AfterRepetition} {r : Context.Recovery}
    (h : c.recover ahead after s = r) : ∃ dropped, Settles s r.state dropped [] := by
  obtain rfl | ⟨expected, skipped, rest, hs, h⟩ := recover_cases h
  · exact ⟨[], .idle rfl rfl⟩
  · obtain ⟨fault, shown, hf⟩ := errors_recordUnexpected c { s with rest } expected (c.next s.rest)
    have settles : Settles s (c.recordUnexpected expected (c.next s.rest) { s with rest })
        skipped [] := by
      refine .drop ?_ (parts_recordUnexpected ..) ?_
      · rw [Context.rest_recordUnexpected]
        exact hs
      · rw [hf]
        exact (markedHead_next shown).of_append hs
    obtain rfl | rfl := h <;> exact ⟨skipped, settles⟩

/-- A run in which a tree is made accounts for every token that it uses up, and one that does not
    end as it should leaves a mistake at the next token. -/
theorem Run.settles
    (made : ∀ r, (g.plans.get r).production = g.productions.get r)
    (reserved : g.productions.NeverExpects .endOfInput)
    (h : Run g n c plan s s' ending) (tree : c.mode = .tree)
    (atEnd : c.endToken.kind = .endOfInput) (noEnd : .endOfInput ∉ plan.production.demands) :
    (∃ taken kept, Settles s s' taken kept) ∧
      (ending ≠ .complete → MarkedHead s'.errors.toList s'.rest) := by
  induction h with
  | @take n c kind follow s met =>
    obtain ⟨t, rest, hrest, -⟩ := exists_cons_of_meets atEnd noEnd met
    exact ⟨⟨[t], [t], .take hrest tree kind⟩, fun cuts => absurd rfl cuts⟩
  | @insert n c kind follow s => exact ⟨⟨[], [], .insert tree kind⟩, fun cuts => absurd rfl cuts⟩
  | @delete n c kind follow s _ met =>
    obtain ⟨u, t, rest, hs⟩ := exists_cons_cons_of_meets atEnd noEnd met
    have hrest : s.rest.tail = t :: rest := by rw [hs, List.tail_cons]
    have marked : MarkedHead (c.recordMismatch kind s).errors.toList s.rest :=
      markedHead_record rfl
    -- the token found is left out under the mistake, and the one asked for is taken
    have skip : Settles s { c.recordMismatch kind s with rest := s.rest.tail } [u] [] :=
      .drop (by simp [hs]) rfl (marked.of_append hs)
    have settles := skip.trans (.take hrest tree kind) (errors_take .. ▸ List.Subset.refl _)
    exact ⟨⟨_, _, settles⟩, fun cuts => absurd rfl cuts⟩
  | miss => exact ⟨⟨[], [], .idle rfl rfl⟩, fun _ => markedHead_record rfl⟩
  | tooDeep => exact ⟨⟨[], [], .idle rfl rfl⟩, fun _ => markedHead_record rfl⟩
  | noRound => exact ⟨⟨[], [], .idle rfl rfl⟩, fun _ => markedHead_record rfl⟩
  | noBranch => exact ⟨⟨[], [], .idle rfl rfl⟩, fun _ => markedHead_record rfl⟩
  | @close n c rule arg follow s inner body ih =>
    obtain ⟨⟨taken, kept, settles⟩, -⟩ := ih tree atEnd (made rule ▸ reserved rule)
    exact ⟨⟨taken, kept, settles.close tree rule false⟩, fun cuts => absurd rfl cuts⟩
  | @resync n c rule arg follow s inner body _ ih =>
    obtain ⟨⟨taken, kept, settles⟩, marked⟩ := ih tree atEnd (made rule ▸ reserved rule)
    obtain ⟨dropped, hdropped⟩ := (c.inside rule arg follow).exists_append_resyncPoint inner.rest
    -- the last mistake of the body marks the stretch up to the point of resumption
    have skip : Settles inner
        { inner with rest := (c.inside rule arg follow).resyncPoint inner.rest } dropped [] :=
      .drop hdropped rfl ((marked nofun).of_append hdropped)
    have both := settles.trans skip (List.Subset.refl _)
    exact ⟨⟨_, _, both.close tree rule true⟩, fun cuts => absurd rfl cuts⟩
  | @unwind n c rule arg follow s inner body _ ih =>
    obtain ⟨⟨taken, kept, settles⟩, marked⟩ := ih tree atEnd (made rule ▸ reserved rule)
    refine ⟨⟨taken, kept, settles.close tree rule true⟩, fun _ => ?_⟩
    rw [errors_close, rest_close]
    exact marked nofun
  | @abort n c rule arg follow s inner body ih =>
    obtain ⟨⟨taken, kept, settles⟩, marked⟩ := ih tree atEnd (made rule ▸ reserved rule)
    refine ⟨⟨taken, kept, settles.close tree rule true⟩, fun _ => ?_⟩
    rw [errors_close, rest_close]
    exact marked nofun
  | nil => exact ⟨⟨[], [], .idle rfl rfl⟩, fun cuts => absurd rfl cuts⟩
  | skip => exact ⟨⟨[], [], .idle rfl rfl⟩, fun cuts => absurd rfl cuts⟩
  | @cons n c p rest s mid s' ending first others ih₁ ih₂ =>
    rw [Plan.demands_cons, List.mem_append, not_or] at noEnd
    obtain ⟨⟨taken, kept, settles⟩, -⟩ := ih₁ tree atEnd noEnd.1
    obtain ⟨⟨more, moreKept, settlesMore⟩, marked⟩ := ih₂ tree atEnd noEnd.2
    exact ⟨⟨_, _, settles.trans settlesMore others.errors_subset⟩, marked⟩
  | @cut n c p rest s s' ending first _ ih =>
    rw [Plan.demands_cons, List.mem_append, not_or] at noEnd
    exact ih tree atEnd noEnd.1
  | enter _ _ ih => exact ih tree atEnd noEnd
  | @round n c nonempty ahead body after s mid s' ending _ first _ others ih₁ ih₂ =>
    rw [Plan.demands_repetition] at noEnd
    obtain ⟨⟨taken, kept, settles⟩, -⟩ := ih₁ tree atEnd noEnd
    obtain ⟨⟨more, moreKept, settlesMore⟩, marked⟩ := ih₂ tree atEnd noEnd
    exact ⟨⟨_, _, settles.trans settlesMore others.errors_subset⟩, marked⟩
  | @idle n c nonempty ahead body after s s' _ _ _ ih =>
    rw [Plan.demands_repetition] at noEnd
    exact ih tree atEnd noEnd
  | @broken n c nonempty ahead body after s s' ending _ _ _ ih =>
    rw [Plan.demands_repetition] at noEnd
    exact ih tree atEnd noEnd
  | leave _ recovery =>
    obtain ⟨dropped, settles⟩ := settles_of_recover recovery
    exact ⟨⟨dropped, [], settles⟩, fun cuts => absurd rfl cuts⟩
  | resume _ recovery others ih =>
    obtain ⟨dropped, settles⟩ := settles_of_recover recovery
    obtain ⟨⟨more, moreKept, settlesMore⟩, marked⟩ := ih tree atEnd noEnd
    exact ⟨⟨_, _, settles.trans settlesMore others.errors_subset⟩, marked⟩
  | branch chosen _ _ _ ih =>
    exact ih tree atEnd fun h => noEnd (Plan.demands_branch chosen h)

end Settling

/-! ## Whole inputs -/

/-- A parse accounts for all tokens of its input. -/
theorem exists_accounted {d : Draft} {g : Grammar} (finished : d.finish = .ok g)
    (reserved : g.productions.NeverExpects .endOfInput) (entry : Rule) (tokens : List Token) :
    ∃ tree kept, (g.parse entry tokens).tree = some tree ∧
      Accounted (g.parse entry tokens).errors tokens kept ∧
      (standing tree.leaves).Perm (standing kept) := by
  obtain ⟨s, ending, run, htree, hend⟩ := parse_cases g entry tokens .tree
  obtain ⟨inner, recovered, hparts⟩ := run.exists_node
  obtain ⟨⟨taken, kept, settles⟩, marked⟩ := run.settles (production_of_finish finished) reserved
    rfl (kind_endOf tokens) (by simp [Plan.production, Production.demands])
  -- the tokens left over at the end begin with one that has an error
  have leftMarked : MarkedHead (g.parse entry tokens).errors s.rest := by
    rcases hend with ⟨found, rest, -, hrest, herrors⟩ | ⟨hrest, herrors⟩
    · rw [herrors, hrest]
      have next : (Context.outermost .tree tokens).next (found :: rest) = found := rfl
      exact next ▸ markedHead_next rfl
    · rw [herrors]
      by_cases complete : ending = .complete
      · rw [hrest complete]
        exact markedHead_nil
      · exact marked complete
  -- no error of the run is lost
  have grow : s.errors.toList ⊆ (g.parse entry tokens).errors := by
    rcases hend with ⟨_, _, -, -, herrors⟩ | ⟨-, herrors⟩
    · exact herrors ▸ List.subset_append_left ..
    · exact herrors ▸ List.Subset.refl _
  refine ⟨_, kept, htree.trans (treeOf_eq_some hparts), ?_, ?_⟩
  · -- the tokens left over are dropped after those of the run
    have whole := (settles.accounted.mono grow).append (.dropped leftMarked)
    rwa [← settles.rest, List.append_nil] at whole
  · -- the leaves of the tree are the tokens that were filed
    have filed := settles.filed
    rw [hparts] at filed
    simpa [Mode.kept, standing, Context.outermost] using filed

/-- No token of a text is lost silently, and none is there twice.  The tokens of the tree that were
    not put in, sorted by their offsets, are some of the tokens of the text, each once.  And where
    tokens of the text are missing from the tree, the first of them has the span and the text of a
    mistake. -/
theorem tokens_accounted {d : Draft} {g : Grammar} (finished : d.finish = .ok g)
    (reserved : g.productions.NeverExpects .endOfInput) (source : String) (file : Option String)
    (entry : Rule) :
    ∃ tree : Node, (g.readSource source file entry).tree = some tree ∧
      ((standing tree.leaves).mergeSort Token.notAfter).Sublist (Scan.ofSource source file).tokens ∧
      (standing tree.leaves).Nodup ∧
      ∀ (before after : List Token) (t : Token),
        (Scan.ofSource source file).tokens = before ++ t :: after →
        t ∉ tree.leaves → (∀ u ∈ before.getLast?, u ∈ tree.leaves) →
        ∃ e ∈ (g.readSource source file entry).errors, e.span = t.span ∧ e.fault.found = t.text := by
  have ordered := pairwise_tokens_ofSource source file
  obtain ⟨tree, kept, htree, accounted, perm⟩ :=
    exists_accounted finished reserved entry (Scan.ofSource source file).tokens
  have shown : standing kept = kept := List.filter_eq_self.mpr fun t ht => by
    simp [inserted_of_mem_ofSource source file (accounted.sublist.subset ht)]
  rw [shown] at perm
  have keptOrdered := ordered.sublist accounted.sublist
  have present : ∀ u ∈ (Scan.ofSource source file).tokens, u ∈ tree.leaves ↔ u ∈ kept := by
    intro u hu
    rw [← perm.mem_iff, standing, List.mem_filter]
    simp [inserted_of_mem_ofSource source file hu]
  refine ⟨tree, htree, ?_, ?_, fun before after t split missing begins => ?_⟩
  · -- sorting the leaves gives the kept tokens, which are in the order of the text
    rw [mergeSort_eq_of_perm perm keptOrdered]
    exact accounted.sublist
  · -- no token is twice in the text
    exact perm.nodup_iff.mpr (nodup_of_before keptOrdered)
  · -- a token that is missing begins a row of dropped ones
    refine accounted.marked_of_not_mem (nodup_of_before ordered) split ?_ fun u hu => ?_
    · exact fun h => missing ((present t (by simp [split])).mpr h)
    · have : u ∈ before := List.mem_of_mem_getLast? hu
      exact (present u (by simp [split, this])).mp (begins u hu)

/-- A selection with a stray parenthesis. -/
def straySource : String := "\x7b a ) \x7d"

/-- Its tokens; the parenthesis is the third. -/
def strayTokens : List Token := (Scan.ofSource straySource).tokens

set_option maxRecDepth 100000 in
/-- In a selection with a stray parenthesis, the parenthesis is left out and marked. -/
theorem tokens_accounted_stray :
    ∃ tree : Node, (Standard.grammar.readSource straySource).tree = some tree ∧
      ((standing tree.leaves).mergeSort Token.notAfter).Sublist strayTokens ∧
      (standing tree.leaves).Nodup ∧
      ∃ e ∈ (Standard.grammar.readSource straySource).errors,
        e.span = (strayTokens.getD 2 default).span ∧ e.fault.found = ")" := by
  obtain ⟨tree, htree, sorted, once, marks⟩ :=
    tokens_accounted Standard.finish_eq Standard.reserved straySource none .document
  have leaves : (Standard.grammar.readSource straySource).tree.map (fun tree =>
      (decide (strayTokens.getD 1 default ∈ tree.leaves),
        decide (strayTokens.getD 2 default ∈ tree.leaves))) = some (true, false) := by
    decide +kernel
  rw [htree] at leaves
  obtain ⟨before, missing⟩ : strayTokens.getD 1 default ∈ tree.leaves ∧
      strayTokens.getD 2 default ∉ tree.leaves := by simpa using leaves
  obtain ⟨e, he, span, text⟩ := marks (strayTokens.take 2) (strayTokens.drop 3)
    (strayTokens.getD 2 default) (by decide +kernel) missing fun u hu => by
      have last : (strayTokens.take 2).getLast? = some (strayTokens.getD 1 default) := by
        decide +kernel
      rw [last] at hu
      cases hu
      exact before
  exact ⟨tree, htree, sorted, once, e, he, span, text.trans (by decide +kernel)⟩

end GraphQL
