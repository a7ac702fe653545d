/-
  Where the nodes of a tree stand.

  A node covers its parts by merging their spans one by one, and what has no place is left out of
  account by a value that stands for no span.  That this gives the stretch from the first token below
  the node to the last is not said by the merging, which knows nothing of order; it holds because the
  parts were read from left to right.  Recovery puts tokens in, leaves tokens out and files broken
  nodes, but it never goes back.

  So the crux is what a run files: parts of which each covers tokens of its own, one after another, all
  of them among the tokens that the run used up (`Spreads`, `Run.lays`).  From there everything is
  arithmetic on tokens in a line (`Lined`): the span of a node is that around its tokens
  (`Spreads.span`), and parts stand one ahead of the next (`Spreads.pairwise_ahead`).
-/
import GraphQL.Proofs.Placement
import GraphQL.Proofs.TokenAccounting

namespace GraphQL

/-! ## Spans -/

namespace ByteSpan

/-- If the first is a place, it lies in the second, which is then a place too. -/
def Inside (inner outer : ByteSpan) : Prop :=
  inner.isPlace = true → outer.isPlace = true ∧ outer.start ≤ inner.start ∧ inner.stop ≤ outer.stop

/-- If both are places, the first ends before the second begins. -/
def Ahead (a b : ByteSpan) : Prop := a.isPlace = true → b.isPlace = true → a.stop ≤ b.start

/-- If both are places, they have no byte in common. -/
def Apart (a b : ByteSpan) : Prop := a.Ahead b ∨ b.Ahead a

theorem Inside.refl (s : ByteSpan) : s.Inside s := fun place => ⟨place, Nat.le_refl _, Nat.le_refl _⟩

theorem Inside.trans {a b c : ByteSpan} (inner : a.Inside b) (outer : b.Inside c) : a.Inside c := by
  intro place
  obtain ⟨middle, start, stop⟩ := inner place
  obtain ⟨last, start', stop'⟩ := outer middle
  exact ⟨last, Nat.le_trans start' start, Nat.le_trans stop stop'⟩

/-- What has no place lies anywhere. -/
theorem nowhere_inside (s : ByteSpan) : nowhere.Inside s := fun place => nomatch place

/-- A span that holds bytes is a place. -/
theorem isPlace_of_lt {s : ByteSpan} (h : s.start < s.stop) : s.isPlace = true := by
  refine bne_iff_ne.mpr ?_
  rintro rfl
  exact absurd h (Nat.lt_irrefl _)

/-- From the start of the first of some tokens to the end of the last. -/
def around (ts : List Token) : ByteSpan :=
  match ts.head?, ts.getLast? with
  | some first, some last => ⟨first.span.start.offset, last.span.stop.offset⟩
  | _, _ => nowhere

end ByteSpan

open ByteSpan (around)

/-! ## Tokens in a line -/

/-- Tokens that stand in a text one after another, and the text is not too long for their places. -/
structure Lined (ts : List Token) : Prop where
  ahead : ts.Pairwise fun a b => a.span.stop.offset ≤ b.span.start.offset
  width : ∀ t ∈ ts, t.span.start.offset < t.span.stop.offset
  bytes : ∀ t ∈ ts, t.bytes = ⟨t.span.start.offset, t.span.stop.offset⟩

namespace Lined

variable {ts us : List Token}

theorem sublist (h : Lined ts) (sub : us.Sublist ts) : Lined us where
  ahead := h.ahead.sublist sub
  width t ht := h.width t (sub.subset ht)
  bytes t ht := h.bytes t (sub.subset ht)

theorem left (h : Lined (ts ++ us)) : Lined ts := h.sublist (List.sublist_append_left ..)

theorem right (h : Lined (ts ++ us)) : Lined us := h.sublist (List.sublist_append_right ..)

/-- Between the first token of a line and the last stand all of them. -/
theorem exists_around (h : Lined ts) (some : ts ≠ []) :
    ∃ first ∈ ts, ∃ last ∈ ts, ts.head? = .some first ∧ ts.getLast? = .some last ∧
      around ts = ⟨first.span.start.offset, last.span.stop.offset⟩ ∧
      ∀ t ∈ ts, first.span.start.offset ≤ t.span.start.offset ∧
        t.span.stop.offset ≤ last.span.stop.offset := by
  obtain ⟨first, rest, front⟩ := List.exists_cons_of_ne_nil some
  obtain ⟨init, last, back⟩ : ∃ init last, ts = init ++ [last] :=
    ⟨_, _, (List.dropLast_append_getLast some).symm⟩
  have head : ts.head? = .some first := by rw [front, List.head?_cons]
  have end' : ts.getLast? = .some last := by rw [back, List.getLast?_concat]
  have hfirst : first ∈ ts := List.mem_of_head? head
  have hlast : last ∈ ts := List.mem_of_getLast? end'
  refine ⟨first, hfirst, last, hlast, head, end', by rw [around, head, end'], fun t ht => ⟨?_, ?_⟩⟩
  · -- the tokens after the first begin behind it
    have ahead := h.ahead
    rw [front] at ht ahead
    rcases List.mem_cons.mp ht with rfl | later
    · exact Nat.le_refl _
    · have wide := h.width first hfirst
      have before := List.rel_of_pairwise_cons ahead later
      omega
  · -- the tokens before the last end before it
    have ahead := h.ahead
    rw [back] at ht ahead
    rcases List.mem_append.mp ht with earlier | same
    · have wide := h.width last hlast
      have before := (List.pairwise_append.mp ahead).2.2 t earlier last (List.mem_singleton_self _)
      omega
    · rw [List.mem_singleton.mp same]

/-- The span around tokens is a place unless there are none. -/
theorem isPlace_around (h : Lined ts) : (around ts).isPlace = true ↔ ts ≠ [] := by
  constructor
  · rintro place rfl
    cases place
  · intro some
    obtain ⟨first, hfirst, last, -, -, -, same, all⟩ := h.exists_around some
    refine ByteSpan.isPlace_of_lt ?_
    have wide := h.width first hfirst
    have before := (all first hfirst).2
    rw [same]
    exact Nat.lt_of_lt_of_le wide before

/-- Where tokens stand ahead of others, merging their spans is going around all of them. -/
theorem around_append (h : Lined (ts ++ us)) :
    around (ts ++ us) = (around ts).merge (around us) := by
  -- one of the two is empty, and `nowhere` is neutral
  by_cases noLeft : ts = []
  · rw [noLeft]
    exact (ByteSpan.merge_nowhere_left _).symm
  by_cases noRight : us = []
  · rw [noRight, List.append_nil]
    exact (ByteSpan.merge_nowhere_right _).symm
  obtain ⟨first, hfirst, last, hlast, head, -, left, -⟩ := h.left.exists_around noLeft
  obtain ⟨first', hfirst', last', hlast', -, final, right, -⟩ := h.right.exists_around noRight
  -- all tokens on the left stand before all tokens on the right
  have ahead := (List.pairwise_append.mp h.ahead).2.2
  have whole : around (ts ++ us) = ⟨first.span.start.offset, last'.span.stop.offset⟩ := by
    rw [around, List.head?_append_of_ne_nil _ noLeft, List.getLast?_append_of_ne_nil _ noRight, head,
      final]
  have start : first.span.start.offset ≤ first'.span.start.offset :=
    Nat.le_of_lt (Nat.lt_of_lt_of_le (h.left.width first hfirst) (ahead first hfirst first' hfirst'))
  have stop : last.span.stop.offset ≤ last'.span.stop.offset :=
    Nat.le_of_lt (Nat.lt_of_le_of_lt (ahead last hlast last' hlast') (h.right.width last' hlast'))
  rw [ByteSpan.merge, if_pos (h.left.isPlace_around.mpr noLeft),
    if_pos (h.right.isPlace_around.mpr noRight), whole, left, right, Nat.min_eq_left start,
    Nat.max_eq_right stop]

/-- Around some tokens of a line lies within around all of them. -/
theorem around_inside (h : Lined ts) (sub : us.Sublist ts) : (around us).Inside (around ts) := by
  by_cases none : us = []
  · rw [none]
    exact ByteSpan.nowhere_inside _
  intro _
  have some : ts ≠ [] := fun empty => none (List.sublist_nil.mp (empty ▸ sub))
  obtain ⟨first, hfirst, last, hlast, -, -, inner, -⟩ := (h.sublist sub).exists_around none
  obtain ⟨first', -, last', -, -, -, outer, all⟩ := h.exists_around some
  refine ⟨h.isPlace_around.mpr some, ?_, ?_⟩
  · rw [inner, outer]
    exact (all first (sub.subset hfirst)).1
  · rw [inner, outer]
    exact (all last (sub.subset hlast)).2

/-- Around tokens that stand ahead of others lies ahead of around those. -/
theorem around_ahead (h : Lined (ts ++ us)) : (around ts).Ahead (around us) := by
  intro left right
  obtain ⟨_, _, last, hlast, _, _, spanLeft, -⟩ :=
    h.left.exists_around (h.left.isPlace_around.mp left)
  obtain ⟨first, hfirst, _, _, _, _, spanRight, -⟩ :=
    h.right.exists_around (h.right.isPlace_around.mp right)
  rw [spanLeft, spanRight]
  exact (List.pairwise_append.mp h.ahead).2.2 last hlast first hfirst

/-- The bytes of a token are those around it, if it was not put in. -/
theorem bytes_eq {t : Token} (h : Lined (standing [t])) : t.bytes = around (standing [t]) := by
  by_cases inserted : t.inserted = true
  · have none : standing [t] = [] := by simp [standing, inserted]
    rw [none, Token.bytes, if_pos inserted]
    rfl
  · have one : standing [t] = [t] := by simp [standing, inserted]
    rw [one] at h ⊢
    exact h.bytes t (List.mem_singleton_self t)

end Lined

/-! ## Parts that were read one after another -/

/-- Parts of which each covers tokens of its own, one after another.  The list gives the tokens that
    were not put in, in their order, through all levels. -/
inductive Spreads : List Part → List Token → Prop where
  | nil : Spreads [] []
  | token {label : Label} (t : Token) {parts : List Part} {ts : List Token}
      (others : Spreads parts ts) : Spreads ((label, .token t) :: parts) (standing [t] ++ ts)
  | node {label : Label} {rule : Rule} {recovered : Bool} {inner parts : List Part}
      {ts us : List Token} (below : Spreads inner ts) (others : Spreads parts us) :
      Spreads ((label, .node (.ofParts rule inner recovered)) :: parts) (ts ++ us)

/-- A node whose parts were read one after another. -/
def Node.Spreads (n : Node) (ts : List Token) : Prop :=
  ∃ rule parts recovered, n = .ofParts rule parts recovered ∧ GraphQL.Spreads parts ts

namespace Spreads

variable {parts parts' : List Part} {ts us : List Token}

/-- Parts that spread over tokens one after the other spread over all of them. -/
theorem append (h : Spreads parts ts) (h' : Spreads parts' us) :
    Spreads (parts ++ parts') (ts ++ us) := by
  induction h with
  | nil => exact h'
  | token t _ ih =>
    rw [List.append_assoc]
    exact .token t ih
  | node below _ _ ih =>
    rw [List.append_assoc]
    exact .node below ih

/-- Merging the spans of parts goes around their tokens.  Induction on the parts; what has been
    merged before them goes around the tokens ahead. -/
theorem foldl_merge (h : Spreads parts ts) {before : List Token} (lined : Lined (before ++ ts)) :
    (parts.map fun (_, e) => e.bytes).foldl ByteSpan.merge (around before)
      = around (before ++ ts) := by
  induction h generalizing before with
  | nil => rw [List.append_nil, List.map_nil, List.foldl_nil]
  | @token label t parts ts others ih =>
    -- the span of the token is merged first, and then those of the others
    rw [← List.append_assoc] at lined ⊢
    have merged : (around before).merge t.bytes = around (before ++ standing [t]) := by
      rw [lined.left.around_append, lined.left.right.bytes_eq]
    rw [← ih lined, ← merged]
    rfl
  | @node label rule recovered inner parts ts us below others ih ih' =>
    rw [← List.append_assoc] at lined ⊢
    -- the span of a node is that of the tokens below it, by the induction on its inside
    have span : (Node.ofParts rule inner recovered).span = around ts :=
      @ih [] lined.left.right
    have merged : (around before).merge (Node.ofParts rule inner recovered).span
        = around (before ++ ts) := by
      rw [lined.left.around_append, span]
    rw [← ih' lined, ← merged]
    rfl

/-- The span of a node goes from its first token to its last. -/
theorem span (h : Spreads parts ts) (lined : Lined ts) (rule : Rule) (recovered : Bool) :
    (Node.ofParts rule parts recovered).span = around ts := by
  have merged : (parts.map fun (_, e) => e.bytes).foldl ByteSpan.merge (around [])
      = around ([] ++ ts) := h.foldl_merge lined
  exact merged

/-- A part covers some of the tokens. -/
theorem exists_around (h : Spreads parts ts) (lined : Lined ts) {part : Part} (hp : part ∈ parts) :
    ∃ us, us.Sublist ts ∧ part.2.bytes = around us := by
  induction h with
  | nil => cases hp
  | @token label t parts ts others ih =>
    rcases List.mem_cons.mp hp with rfl | hp
    · exact ⟨_, List.sublist_append_left .., lined.left.bytes_eq⟩
    · obtain ⟨us, sub, same⟩ := ih lined.right hp
      exact ⟨us, sub.trans (List.sublist_append_right ..), same⟩
  | @node label rule recovered inner parts ts us below others _ ih =>
    rcases List.mem_cons.mp hp with rfl | hp
    · exact ⟨_, List.sublist_append_left .., below.span lined.left rule recovered⟩
    · obtain ⟨vs, sub, same⟩ := ih lined.right hp
      exact ⟨vs, sub.trans (List.sublist_append_right ..), same⟩

/-- Parts stand one ahead of the next. -/
theorem pairwise_ahead (h : Spreads parts ts) (lined : Lined ts) :
    parts.Pairwise fun p q => p.2.bytes.Ahead q.2.bytes := by
  have first : ∀ {bytes : ByteSpan} {ts us : List Token} {parts : List Part}, Spreads parts us →
      Lined (ts ++ us) → bytes = around ts → ∀ q ∈ parts, bytes.Ahead q.2.bytes := by
    intro bytes ts us parts others lined same q hq
    obtain ⟨vs, sub, same'⟩ := others.exists_around lined.right hq
    rw [same, same']
    exact (lined.sublist (sub.append_left ts)).around_ahead
  induction h with
  | nil => exact .nil
  | token t others ih =>
    exact .cons (first others lined lined.left.bytes_eq) (ih lined.right)
  | @node label rule recovered inner parts ts us below others _ ih =>
    exact .cons (first others lined (below.span lined.left rule recovered)) (ih lined.right)

/-- The tokens are those below the parts that were not put in. -/
theorem perm_leaves (h : Spreads parts ts) : ts.Perm (standing (leavesOfParts parts)) := by
  induction h with
  | nil => exact .refl _
  | @token label t parts ts others ih =>
    have split : leavesOfParts ((label, .token t) :: parts) = [t] ++ leavesOfParts parts := rfl
    rw [split, standing_append]
    exact ih.append_left _
  | @node label rule recovered inner parts ts us below others ih ih' =>
    have split : leavesOfParts ((label, .node (.ofParts rule inner recovered)) :: parts)
        = (Node.ofParts rule inner recovered).leaves ++ leavesOfParts parts := rfl
    have leaves := (Node.leaves_ofParts rule inner recovered).filter fun t => !t.inserted
    rw [split, standing_append]
    exact (ih.trans leaves.symm).append ih'

/-- A node among the parts was read from parts of its own. -/
theorem exists_node (h : Spreads parts ts) {label : Label} {c : Node}
    (hc : (label, .node c) ∈ parts) : ∃ us, us.Sublist ts ∧ c.Spreads us := by
  induction h with
  | nil => cases hc
  | token t _ ih =>
    rcases List.mem_cons.mp hc with same | hc
    · cases same
    · obtain ⟨us, sub, spreads⟩ := ih hc
      exact ⟨us, sub.trans (List.sublist_append_right ..), spreads⟩
  | node below _ _ ih =>
    rcases List.mem_cons.mp hc with same | hc
    · cases same
      exact ⟨_, List.sublist_append_left .., _, _, _, rfl, below⟩
    · obtain ⟨us, sub, spreads⟩ := ih hc
      exact ⟨us, sub.trans (List.sublist_append_right ..), spreads⟩

end Spreads

/-! ## What a run files -/

/-- From one state to another some parts are filed, one after another, and the tokens that they
    cover are among those that are used up, in their order. -/
structure Lays (s s' : State) (parts : List Part) (kept : List Token) : Prop where
  filed : s'.parts.toList = s.parts.toList ++ parts
  spreads : Spreads parts kept
  rest : ∃ taken, s.rest = taken ++ s'.rest ∧ kept.Sublist taken

namespace Lays

variable {c : Context} {s mid s' inner : State} {parts more : List Part} {kept moreKept : List Token}

/-- Tokens are left out; nothing is filed. -/
theorem drop (dropped : List Token) (hrest : s.rest = dropped ++ s'.rest)
    (hparts : s'.parts = s.parts) : Lays s s' [] [] where
  filed := by rw [hparts, List.append_nil]
  spreads := .nil
  rest := ⟨dropped, hrest, List.nil_sublist _⟩

/-- No token is used up and nothing is filed. -/
theorem idle (hrest : s'.rest = s.rest) (hparts : s'.parts = s.parts) : Lays s s' [] [] :=
  drop [] hrest.symm hparts

/-- What is laid in two steps is laid in one. -/
theorem trans (h₁ : Lays s mid parts kept) (h₂ : Lays mid s' more moreKept) :
    Lays s s' (parts ++ more) (kept ++ moreKept) where
  filed := by rw [h₂.filed, h₁.filed, List.append_assoc]
  spreads := h₁.spreads.append h₂.spreads
  rest := by
    obtain ⟨taken, rest, sub⟩ := h₁.rest
    obtain ⟨taken', rest', sub'⟩ := h₂.rest
    exact ⟨taken ++ taken', by rw [rest, rest', List.append_assoc], sub.append sub'⟩

/-- The next token is taken under a demand. -/
theorem take {t : Token} {rest : List Token} (hrest : s.rest = t :: rest) (tree : c.mode = .tree)
    (kind : TokenKind) :
    Lays s (c.take kind s) [(.token kind, .token t)] (standing [t] ++ []) where
  filed := by simp [tree, Mode.kept, Context.next, hrest]
  spreads := .token t .nil
  rest := ⟨[t], by simp [hrest], by rw [List.append_nil]; exact List.filter_sublist⟩

/-- A missing token is put in; it covers nothing. -/
theorem insert (tree : c.mode = .tree) (kind : TokenKind) :
    Lays s ((c.recordMismatch kind s).file c.mode
      (.token kind, .token (.missing kind (c.next s.rest))))
      [(.token kind, .token (.missing kind (c.next s.rest)))] [] where
  filed := by simp [tree, Mode.kept]
  spreads := .token (.missing kind (c.next s.rest)) .nil
  rest := ⟨[], by simp, List.nil_sublist _⟩

/-- What a rule has read is filed as one node by the rule that called it. -/
theorem close (h : Lays { s with parts := #[] } inner parts kept) (tree : c.mode = .tree)
    (rule : Rule) (recovered : Bool) :
    Lays s (c.close rule recovered s inner) [(.rule rule, .node (.ofParts rule parts recovered))]
      (kept ++ []) where
  filed := by
    have read : inner.parts.toList = parts := h.filed
    rw [parts_close, tree, read]
    rfl
  spreads := .node h.spreads .nil
  rest := by
    rw [rest_close, List.append_nil]
    exact h.rest

end Lays

/-- A repetition that goes on after a mistake files nothing. -/
theorem lays_of_recover {c : Context} {ahead : Lookahead} {after : AfterRepetition} {s : State}
    {r : Context.Recovery} (h : c.recover ahead after s = r) : Lays s r.state [] [] := by
  have parts := parts_of_recover h
  obtain rfl | ⟨expected, skipped, rest, hs, rfl | rfl⟩ := recover_cases h
  · exact .idle rfl rfl
  · exact .drop skipped (by rw [Context.Recovery.state, Context.rest_recordUnexpected, hs]) parts
  · exact .drop skipped (by rw [Context.Recovery.state, Context.rest_recordUnexpected, hs]) parts

/-- A run in which a tree is made files parts one after another. -/
theorem Run.lays {g : Grammar} {n : Nat} {c : Context} {plan : Plan} {s s' : State}
    {ending : Ending} (made : ∀ r, (g.plans.get r).production = g.productions.get r)
    (reserved : g.productions.NeverExpects .endOfInput)
    (h : Run g n c plan s s' ending) (tree : c.mode = .tree)
    (atEnd : c.endToken.kind = .endOfInput) (noEnd : .endOfInput ∉ plan.production.demands) :
    ∃ parts kept, Lays s s' parts kept := by
  induction h with
  | @take n c kind follow s met =>
    -- the token that is met is not the end of the input, so it stands in the text
    obtain ⟨t, rest, hrest, -⟩ := exists_cons_of_meets atEnd noEnd met
    exact ⟨_, _, .take hrest tree kind⟩
  | insert => exact ⟨_, _, .insert tree _⟩
  | @delete n c kind follow s _ met =>
    obtain ⟨u, t, rest, hs⟩ := exists_cons_cons_of_meets atEnd noEnd met
    -- the redundant token is dropped, and the one behind it is laid
    have hrest : s.rest.tail = t :: rest := by rw [hs, List.tail_cons]
    have skip : Lays s { c.recordMismatch kind s with rest := s.rest.tail } [] [] :=
      .drop [u] (by simp [hs]) rfl
    exact ⟨_, _, skip.trans (.take hrest tree kind)⟩
  -- nothing is read and nothing is filed
  | miss => exact ⟨_, _, .idle rfl rfl⟩
  | tooDeep => exact ⟨_, _, .idle rfl rfl⟩
  | noRound => exact ⟨_, _, .idle rfl rfl⟩
  | noBranch => exact ⟨_, _, .idle rfl rfl⟩
  | nil => exact ⟨_, _, .idle rfl rfl⟩
  | skip => exact ⟨_, _, .idle rfl rfl⟩
  | @close n c rule arg follow s inner body ih =>
    -- what the inside lays becomes one node
    obtain ⟨parts, kept, lays⟩ := ih tree atEnd (made rule ▸ reserved rule)
    exact ⟨_, _, lays.close tree rule false⟩
  | @resync n c rule arg follow s inner body _ ih =>
    obtain ⟨parts, kept, lays⟩ := ih tree atEnd (made rule ▸ reserved rule)
    -- the tokens up to the point of resumption are dropped before the node is closed
    obtain ⟨dropped, hdropped⟩ := (c.inside rule arg follow).exists_append_resyncPoint inner.rest
    have skip : Lays inner
        { inner with rest := (c.inside rule arg follow).resyncPoint inner.rest } [] [] :=
      .drop dropped hdropped rfl
    exact ⟨_, _, (lays.trans skip).close tree rule true⟩
  | @unwind n c rule arg follow s inner body _ ih =>
    obtain ⟨parts, kept, lays⟩ := ih tree atEnd (made rule ▸ reserved rule)
    exact ⟨_, _, lays.close tree rule true⟩
  | @abort n c rule arg follow s inner body ih =>
    obtain ⟨parts, kept, lays⟩ := ih tree atEnd (made rule ▸ reserved rule)
    exact ⟨_, _, lays.close tree rule true⟩
  | cons _ _ ih₁ ih₂ =>
    rw [Plan.demands_cons, List.mem_append, not_or] at noEnd
    obtain ⟨_, _, lays⟩ := ih₁ tree atEnd noEnd.1
    obtain ⟨_, _, laysMore⟩ := ih₂ tree atEnd noEnd.2
    exact ⟨_, _, lays.trans laysMore⟩
  | cut _ _ ih =>
    rw [Plan.demands_cons, List.mem_append, not_or] at noEnd
    exact ih tree atEnd noEnd.1
  | enter _ _ ih => exact ih tree atEnd noEnd
  | round _ _ _ _ ih₁ ih₂ =>
    rw [Plan.demands_repetition] at noEnd
    obtain ⟨_, _, lays⟩ := ih₁ tree atEnd noEnd
    obtain ⟨_, _, laysMore⟩ := ih₂ tree atEnd noEnd
    exact ⟨_, _, lays.trans laysMore⟩
  | idle _ _ _ ih =>
    rw [Plan.demands_repetition] at noEnd
    exact ih tree atEnd noEnd
  | broken _ _ _ ih =>
    rw [Plan.demands_repetition] at noEnd
    exact ih tree atEnd noEnd
  -- what recovery skips is dropped
  | leave _ recovery => exact ⟨_, _, lays_of_recover recovery⟩
  | resume _ recovery _ ih =>
    obtain ⟨_, _, lays⟩ := ih tree atEnd noEnd
    exact ⟨_, _, (lays_of_recover recovery).trans lays⟩
  | branch chosen _ _ _ ih => exact ih tree atEnd fun h => noEnd (Plan.demands_branch chosen h)

/-! ## Trees -/

/-- The tree of a parse was read from parts, one after another, that cover some of the tokens. -/
theorem exists_spreads {d : Draft} {g : Grammar} (finished : d.finish = .ok g)
    (reserved : g.productions.NeverExpects .endOfInput) (entry : Rule) (tokens : List Token) :
    ∃ tree kept, (g.parse entry tokens).tree = some tree ∧ tree.Spreads kept ∧
      kept.Sublist tokens := by
  obtain ⟨s, ending, run, htree, -⟩ := parse_cases g entry tokens .tree
  obtain ⟨inner, recovered, hparts⟩ := run.exists_node
  obtain ⟨parts, kept, lays⟩ := run.lays (production_of_finish finished) reserved rfl
    (kind_endOf tokens) (by simp [Plan.production, Production.demands])
  have filed : parts = [(.rule entry, .node (.ofParts entry inner recovered))] :=
    lays.filed.symm.trans hparts
  obtain ⟨us, sub, spreads⟩ := lays.spreads.exists_node (filed ▸ List.mem_singleton_self _)
  obtain ⟨taken, rest, among⟩ := lays.rest
  have tokensAhead : taken.Sublist tokens := by
    have rest : tokens = taken ++ s.rest := rest
    rw [rest]
    exact List.sublist_append_left ..
  exact ⟨_, us, htree.trans (treeOf_eq_some hparts), spreads, (sub.trans among).trans tokensAhead⟩

namespace Node.Spreads

variable {n m c : Node} {ts : List Token}

/-- Each node of a tree covers some of the tokens of the tree. -/
theorem within (h : n.Spreads ts) (hm : m.Within n) : ∃ us, us.Sublist ts ∧ m.Spreads us := by
  induction hm generalizing ts with
  | root => exact ⟨ts, List.Sublist.refl _, h⟩
  | step child _ ih =>
    obtain ⟨rule, parts, recovered, rfl, spreads⟩ := h
    obtain ⟨label, hc⟩ := mem_children_ofParts.mp child
    obtain ⟨us, sub, below⟩ := spreads.exists_node hc
    obtain ⟨vs, sub', found⟩ := ih below
    exact ⟨vs, sub'.trans sub, found⟩

theorem span (h : n.Spreads ts) (lined : Lined ts) : n.span = around ts := by
  obtain ⟨rule, parts, recovered, rfl, spreads⟩ := h
  exact spreads.span lined rule recovered

theorem perm_leaves (h : n.Spreads ts) : ts.Perm (standing n.leaves) := by
  obtain ⟨rule, parts, recovered, rfl, spreads⟩ := h
  have leaves := (Node.leaves_ofParts rule parts recovered).filter fun t => !t.inserted
  exact spreads.perm_leaves.trans leaves.symm

/-- A node is nowhere just if no token below it stands in the text. -/
theorem isPlace_span (h : n.Spreads ts) (lined : Lined ts) :
    n.span.isPlace = false ↔ standing n.leaves = [] := by
  rw [h.span lined, Bool.eq_false_iff, Ne, lined.isPlace_around, not_not]
  exact ⟨fun none => (none ▸ h.perm_leaves).nil_eq.symm, fun none => (none ▸ h.perm_leaves).eq_nil⟩

/-- What is filed under one label stands one ahead of the next. -/
theorem pairwise_ahead (h : n.Spreads ts) (lined : Lined ts) {label : Label}
    {es : List (Element Node)} (hg : (label, es) ∈ n.groups) :
    (es.map Element.bytes).Pairwise ByteSpan.Ahead := by
  obtain ⟨rule, parts, recovered, rfl, spreads⟩ := h
  obtain ⟨l, -, same⟩ := List.mem_map.mp hg
  have filed : es = (parts.filter (·.1 = l)).map (·.2) := by
    rw [← filterMap_label]
    exact (Prod.mk.inj same).2.symm
  rw [filed, List.pairwise_map, List.pairwise_map]
  exact (spreads.pairwise_ahead lined).filter _

/-- The parts of a node, of whatever labels, have no byte in common. -/
theorem pairwise_apart (h : n.Spreads ts) (lined : Lined ts) :
    ((n.groups.flatMap (·.2)).map Element.bytes).Pairwise ByteSpan.Apart := by
  obtain ⟨rule, parts, recovered, rfl, spreads⟩ := h
  have ahead : ((parts.map (·.2)).map Element.bytes).Pairwise ByteSpan.Apart := by
    rw [List.pairwise_map, List.pairwise_map]
    exact (spreads.pairwise_ahead lined).imp .inl
  exact ((perm_group parts).map Element.bytes).symm.pairwise ahead Or.symm

/-- What a node holds lies inside it. -/
theorem bytes_inside (h : n.Spreads ts) (lined : Lined ts) {label : Label}
    {es : List (Element Node)} (hg : (label, es) ∈ n.groups) {e : Element Node} (he : e ∈ es) :
    e.bytes.Inside n.span := by
  have span := h.span lined
  obtain ⟨rule, parts, recovered, rfl, spreads⟩ := h
  obtain ⟨part, hp, rfl⟩ := List.mem_map.mp
    ((perm_group parts).mem_iff.mp (List.mem_flatMap.mpr ⟨_, hg, he⟩))
  obtain ⟨us, sub, same⟩ := spreads.exists_around lined hp
  rw [span, same]
  exact lined.around_inside sub

end Node.Spreads

/-! ## Texts -/

/-- The tokens of a text stand in a line, if the text is short enough for their places. -/
theorem lined_ofSource {source : String} (file : Option String)
    (short : source.utf8ByteSize < ByteSpan.wordLimit - 1) :
    Lined (Scan.ofSource source file).tokens := by
  obtain ⟨-, inside, ordered⟩ := (Placed.tiles_pieces file source).ordered
  have within : ∀ t ∈ (Scan.ofSource source file).tokens,
      t.span.start.offset < t.span.stop.offset ∧ t.span.stop.offset ≤ source.utf8ByteSize := by
    intro t ht
    obtain ⟨p, hp, token⟩ := List.mem_filterMap.mp ht
    rw [Placed.span_of_token? token]
    exact (inside _ (List.mem_map_of_mem hp)).2
  refine ⟨?_, fun t ht => (within t ht).1, fun t ht => ?_⟩
  · -- the tokens stand in the order of the pieces
    refine List.Pairwise.filterMap _ (fun p q ahead t ht u hu => ?_) (List.pairwise_map.mp ordered)
    rwa [Placed.span_of_token? ht, Placed.span_of_token? hu]
  · -- no offset of a text this short is too large for a word
    obtain ⟨wide, fits⟩ := within t ht
    have small : t.span.start.offset < ByteSpan.wordLimit ∧
        t.span.stop.offset < ByteSpan.wordLimit := by omega
    rw [Token.bytes, inserted_of_mem_ofSource source file ht, Span.bytes]
    simp [small]

end GraphQL
