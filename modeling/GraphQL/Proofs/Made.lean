/-
  What is made of what was read.

  A maker of a part of a document is faithful on a node if it makes something, nothing is missing in
  it, and it says what the node was read from, save for what is superfluous there (`Made`).  Makers
  look into their nodes in a few ways: at the one reading of a rule that must or may be there, at all
  of them, or at the one that was chosen.  For each way there is one lemma here, which turns faithful
  makers for the readings into what is made of the node.
-/
import GraphQL.Document.OfTree.Selection
import GraphQL.Proofs.Matches
import GraphQL.Proofs.Whole

namespace GraphQL

/-- What is made of a node is whole and says what the node was read from. -/
def Made {α : Type} (signs : α → List Sign) (whole : α → Bool) (n : Node) (taken : List Token)
    (result : Build α) : Prop :=
  ∃ a, result = .ok a ∧ whole a = true ∧ Spells taken n.superfluous (signs a)

/-- The same of a maker that may come to nothing: it does not. -/
abbrev Chosen {α : Type} (signs : α → List Sign) (whole : α → Bool) (n : Node)
    (taken : List Token) (result : Build (Option α)) : Prop :=
  Made (optionSigns signs) (Option.any whole) n taken result

/-- Whether a list has items, and nothing is missing in any of them. -/
def listWhole {α : Type} (whole : α → Bool) (items : List α) : Bool :=
  !items.isEmpty && items.all whole

section Makers

variable {α β : Type} {signs : α → List Sign} {whole : α → Bool} {r q : Rule} {n c : Node}
  {taken : List Token} {lead : List Sign}

/-- What is made may be put under a constructor that says the same. -/
theorem Made.chosen {signs' : β → List Sign} {whole' : β → Bool} {result : Build α}
    (made : Made signs whole n taken result) (f : α → β) (same : ∀ a, signs' (f a) = signs a)
    (asWhole : ∀ a, whole' (f a) = whole a) :
    Chosen signs' whole' n taken (result.map fun a => some (f a)) := by
  obtain ⟨a, rfl, ha, spells⟩ := made
  exact ⟨some (f a), rfl, (asWhole a).trans ha, by simpa [optionSigns, same] using spells⟩

theorem Made.some {result : Build α} (made : Made signs whole n taken result) :
    Chosen signs whole n taken (result.map Option.some) :=
  made.chosen id (fun _ => rfl) fun _ => rfl

/-! ## One reading -/

/-- The reading of a rule that must be there. -/
theorem withRequired_eq {f : (c : Node) → c ∈ n.children → Build α} {a : α}
    (held : n.nodes r = [c]) (made : ∀ hc, f c hc = .ok a) : n.withRequired r f = .ok (some a) := by
  unfold Node.withRequired
  split
  · rename_i none
    rw [held] at none
    cases none
  · rename_i c' rest found
    rw [held] at found
    obtain ⟨rfl, -⟩ := List.cons.inj found
    rw [made]
    rfl

/-- What is made of the reading of a rule that must be there. -/
theorem ReadFrom.withRequired {f : (c : Node) → c ∈ n.children → Build α}
    (read : ReadFrom r c taken) (held : n.nodes r = [c])
    (made : ∀ c hc, ReadFrom r c taken → Made signs whole c taken (f c hc)) :
    ∃ a, n.withRequired r f = .ok (Option.some a) ∧ whole a = true ∧
      Spells taken c.superfluous (signs a) := by
  have hc : c ∈ n.children := Node.mem_children_of_mem_nodes (held ▸ List.mem_cons_self)
  obtain ⟨a, eq, ha, spells⟩ := made c hc read
  exact ⟨a, withRequired_eq held fun _ => eq, ha, spells⟩

/-- The same, where making may come to nothing but does not. -/
theorem ReadFrom.withRequired_some {f : (c : Node) → c ∈ n.children → Build (Option α)}
    (read : ReadFrom r c taken) (held : n.nodes r = [c])
    (made : ∀ c hc, ReadFrom r c taken → Chosen signs whole c taken (f c hc)) :
    ∃ a, n.withRequired r f = .ok (Option.some (Option.some a)) ∧ whole a = true ∧
      Spells taken c.superfluous (signs a) := by
  obtain ⟨a?, eq, ha, spells⟩ := read.withRequired held made
  cases a? with
  | none => cases ha
  | some a => exact ⟨a, eq, ha, spells⟩

/-- A reading that is not there. -/
theorem withFirst_eq_none {f : (c : Node) → c ∈ n.children → Build α} (held : n.nodes r = []) :
    n.withFirst r f = .ok none := by
  unfold Node.withFirst
  split
  · rfl
  · rename_i found
    rw [held] at found
    cases found

/-- A reading that may be there and is. -/
theorem withFirst_eq_some {f : (c : Node) → c ∈ n.children → Build α} {a : α}
    (held : n.nodes r = [c]) (made : ∀ hc, f c hc = .ok a) : n.withFirst r f = .ok (some a) := by
  unfold Node.withFirst
  split
  · rename_i none
    rw [held] at none
    cases none
  · rename_i c' rest found
    rw [held] at found
    obtain ⟨rfl, -⟩ := List.cons.inj found
    rw [made]
    rfl

theorem listWithin_eq_nil {f : Node → Build (List α)} (held : n.nodes r = []) :
    listWithin n r f = .ok [] := by
  rw [listWithin, withFirst_eq_none held]
  rfl

/-- The reading of a rule that may be there. -/
theorem ReadOptional.withFirst {c? : Option Node} {f : (c : Node) → c ∈ n.children → Build α}
    (read : ReadOptional r c? taken) (held : n.nodes r = c?.toList)
    (made : ∀ c hc, ReadFrom r c taken → Made signs whole c taken (f c hc)) :
    ∃ a?, n.withFirst r f = .ok a? ∧ a?.all whole = true ∧ a?.isNone = c?.isNone ∧
      Spells taken (c?.toList.flatMap Node.superfluous) (optionSigns signs a?) := by
  cases read with
  | absent => exact ⟨none, withFirst_eq_none held, rfl, rfl, .nil⟩
  | @present c _ read =>
    have held : n.nodes r = [c] := held
    have hc : c ∈ n.children := Node.mem_children_of_mem_nodes (held ▸ List.mem_cons_self)
    obtain ⟨a, eq, ha, spells⟩ := made c hc read
    exact ⟨some a, withFirst_eq_some held fun _ => eq, ha, rfl,
      by simpa [optionSigns] using spells⟩

/-- The same, where making may come to nothing but does not. -/
theorem ReadOptional.withFirst_join {c? : Option Node}
    {f : (c : Node) → c ∈ n.children → Build (Option α)} (read : ReadOptional r c? taken)
    (held : n.nodes r = c?.toList)
    (made : ∀ c hc, ReadFrom r c taken → Chosen signs whole c taken (f c hc)) :
    ∃ a??, n.withFirst r f = .ok a?? ∧ a??.join.all whole = true ∧
      Spells taken (c?.toList.flatMap Node.superfluous) (optionSigns signs a??.join) := by
  obtain ⟨a??, eq, all, -, spells⟩ := read.withFirst held made
  refine ⟨a??, eq, ?_, ?_⟩
  · rcases a?? with _ | _ | a
    · rfl
    · rfl
    · exact all
  · rcases a?? with _ | _ | a <;> exact spells

/-- The list in a reading that may be there; it is empty only if the reading is not there. -/
theorem ReadOptional.listWithin {signs : List α → List Sign} {c? : Option Node}
    {f : Node → Build (List α)} (read : ReadOptional r c? taken) (held : n.nodes r = c?.toList)
    (nothing : signs [] = [])
    (made : ∀ {c taken}, ReadFrom r c taken → Made signs (listWhole whole) c taken (f c)) :
    ∃ as, listWithin n r f = .ok as ∧ as.all whole = true ∧ as.isEmpty = c?.isNone ∧
      Spells taken (c?.toList.flatMap Node.superfluous) (signs as) := by
  obtain ⟨as?, eq, all, same, spells⟩ := read.withFirst held fun _ _ => made
  refine ⟨as?.getD [], by rw [GraphQL.listWithin, eq]; rfl, ?_, ?_, ?_⟩
  · -- nothing is missing
    cases as? with
    | none => rfl
    | some as => exact (Bool.and_eq_true_iff.mp all).2
  · -- a list is there exactly if its child is
    cases as? with
    | none => exact same
    | some as =>
      rw [← same]
      simpa using (Bool.and_eq_true_iff.mp all).1
  · -- and it is written as its elements are
    cases as? with
    | none => simpa [optionSigns, nothing] using spells
    | some as => simpa [optionSigns] using spells

/-- The one reading that a rule chooses. -/
theorem withChosen_eq {alternatives : List Label}
    {f : (c : Node) → c ∈ n.children → Option (Build (Option α))} (result : Build (Option α))
    (only : n.children = [c]) (made : ∀ hc, f c hc = some result) :
    n.withChosen alternatives f = result := by
  unfold Node.withChosen
  split
  · rename_i none
    rw [only] at none
    cases none
  · rename_i c' rest found
    rw [only] at found
    obtain ⟨rfl, -⟩ := List.cons.inj found
    rw [made]

/-- A rule that only chooses says what it chose. -/
theorem withChosen_made {alternatives : List Label}
    {f : (c : Node) → c ∈ n.children → Option (Build (Option α))}
    (laid : n = .ofParts r (nodeParts q [c]) false)
    (none : ∀ parts, (Node.ofParts r parts false).ownSuperfluous = [])
    (made : c ∈ n.children → ∃ result, (∀ hc, f c hc = some result) ∧
      Chosen signs whole c taken result) :
    Chosen signs whole n taken (n.withChosen alternatives f) := by
  have only : n.children = [c] := Node.children_eq_singleton laid rfl
  obtain ⟨result, eq, a, rfl, ha, spells⟩ := made (only ▸ List.mem_cons_self)
  exact ⟨a, withChosen_eq _ only eq, ha, .plain laid (by simpa using spells) none⟩

/-! ## All readings -/

/-- What is made of readings one after the other, each behind the same signs. -/
theorem ReadAll.mapM {cs : List { c // c ∈ n.nodes r }}
    {f : (c : Node) → c ∈ n.children → Build α} (read : ReadAll r lead (cs.map (·.val)) taken)
    (made : ∀ c hc {taken}, ReadFrom r c taken → Made signs whole c taken (f c hc)) :
    ∃ as, (cs.mapM fun c => f c.val (Node.mem_children_of_mem_nodes c.property)) = .ok as ∧
      as.all whole = true ∧ as.length = cs.length ∧
      Spells taken ((cs.map (·.val)).flatMap Node.superfluous)
        (as.flatMap fun a => lead ++ signs a) := by
  induction cs generalizing taken with
  | nil =>
    cases read
    exact ⟨[], rfl, rfl, rfl, .nil⟩
  | cons c cs ih =>
    cases read with
    | @cons _ _ before _ _ led first others =>
      obtain ⟨a, eq, ha, spells⟩ := made c.val (Node.mem_children_of_mem_nodes c.property) first
      obtain ⟨as, eqs, has, count, more⟩ := ih others
      -- the tokens before a reading say the lead, and none of them is superfluous
      have leads : Spells before [] lead := by
        subst led
        exact ⟨List.nil_subset _, fun _ => by simp⟩
      refine ⟨a :: as, by rw [List.mapM_cons, eq, eqs]; rfl, by simp [ha, has], by simp [count], ?_⟩
      simpa using leads.append (spells.append more)

/-- What is made of all readings of a rule. -/
theorem ReadAll.withEach {cs : List Node} {f : (c : Node) → c ∈ n.children → Build α}
    (read : ReadAll r [] cs taken) (held : n.nodes r = cs)
    (made : ∀ c hc {taken}, ReadFrom r c taken → Made signs whole c taken (f c hc)) :
    ∃ as, n.withEach r f = .ok as ∧ as.all whole = true ∧ as.length = cs.length ∧
      Spells taken (cs.flatMap Node.superfluous) (as.flatMap signs) := by
  have same : (n.nodes r).attach.map (·.val) = cs := by rw [List.attach_map_subtype_val, held]
  obtain ⟨as, eq, all, count, spells⟩ := ReadAll.mapM (same.symm ▸ read) made
  rw [same] at spells
  refine ⟨as, eq, all, ?_, spells⟩
  rw [count, List.length_attach, held]

/-- What is made of a first reading and of others that stand behind marks. -/
theorem ReadFrom.withEach_separated {mark : Punctuator} {cs : List Node} {more : List Token}
    {f : (c : Node) → c ∈ n.children → Build α} (first : ReadFrom r c taken)
    (others : ReadAll r [mark.sign] cs more) (held : n.nodes r = c :: cs)
    (made : ∀ c hc {taken}, ReadFrom r c taken → Made signs whole c taken (f c hc)) :
    ∃ as, n.withEach r f = .ok as ∧ listWhole whole as = true ∧
      Spells (taken ++ more) ((c :: cs).flatMap Node.superfluous) (separated mark signs as) := by
  unfold Node.withEach
  have same : (n.nodes r).attach.map (·.val) = c :: cs := by
    rw [List.attach_map_subtype_val, held]
  cases h : (n.nodes r).attach with
  | nil =>
    -- there is a first one
    rw [h] at same
    cases same
  | cons d ds =>
    -- the first is written without a mark, and each further one behind a mark
    rw [h] at same
    obtain ⟨rfl, rfl⟩ := List.cons.inj same
    obtain ⟨a, eq, ha, spells⟩ := made d.val (Node.mem_children_of_mem_nodes d.property) first
    obtain ⟨as, eqs, has, -, mores⟩ := ReadAll.mapM others made
    refine ⟨a :: as, by rw [List.mapM_cons, eq, eqs]; rfl, by simp [listWhole, ha, has], ?_⟩
    simpa [separated] using spells.append mores

/-- Where all of some results are there, they are those of a list. -/
theorem exists_map_some {found : List (Option α)} (all : found.all (Option.any whole) = true) :
    ∃ as : List α, found = as.map some := by
  induction found with
  | nil => exact ⟨[], rfl⟩
  | cons a? rest ih =>
    obtain ⟨here, others⟩ := Bool.and_eq_true_iff.mp all
    obtain ⟨as, rfl⟩ := ih others
    cases a? with
    | none => cases here
    | some a => exact ⟨a :: as, rfl⟩

/-- What is made of all readings, where making may come to nothing but does not. -/
theorem ReadAll.withPresent {cs : List Node} {f : (c : Node) → c ∈ n.children → Build (Option α)}
    (read : ReadAll r [] cs taken) (held : n.nodes r = cs)
    (made : ∀ c hc {taken}, ReadFrom r c taken → Chosen signs whole c taken (f c hc)) :
    ∃ as, n.withPresent r f = .ok as ∧ as.all whole = true ∧ as.length = cs.length ∧
      Spells taken (cs.flatMap Node.superfluous) (as.flatMap signs) := by
  obtain ⟨found, eq, all, count, spells⟩ := read.withEach held made
  obtain ⟨as, rfl⟩ := exists_map_some all
  exact ⟨as, by rw [Node.withPresent, eq]; simp [Except.map], by simpa using all,
    by simpa using count, by simpa [List.flatMap_map, optionSigns] using spells⟩

/-! ## Rules that list -/

/-- What is made of a reading of a rule that lists readings between two marks. -/
theorem ReadFrom.between {opening closing : Punctuator} {item : Rule} {arg : ConstArg}
    {f : (c : Node) → c ∈ n.children → Build α} (read : ReadFrom r n taken)
    (row : Standard.production r = .sequence [.token (.punctuator opening),
      .atLeastOne (.call item arg), .token (.punctuator closing)])
    (none : ∀ parts, (Node.ofParts r parts false).ownSuperfluous = [])
    (made : ∀ c hc {taken}, ReadFrom item c taken → Made signs whole c taken (f c hc)) :
    Made (clauseBetween opening closing signs) (listWhole whole) n taken (n.withEach item f) := by
  obtain ⟨parts, laid, h⟩ := read
  rw [row] at h
  obtain ⟨t, _, _, rfl, rfl, met, spelled, h⟩ := h.row_token
  obtain ⟨c, cs, inner, _, _, rfl, rfl, all, h⟩ := h.row_atLeastOne
  obtain ⟨t', _, _, rfl, rfl, met', spelled', h⟩ := h.row_token
  obtain ⟨rfl, rfl⟩ := h.row_nil
  obtain ⟨as, eq, has, count, spells⟩ := all.withEach (by simp [laid]) made
  have all := Spells.between (spelled.sign_of_mark met) (spelled'.sign_of_mark met') spells
  -- at least one item was read, so the marks are there
  cases as with
  | nil => cases count
  | cons a as =>
    refine ⟨a :: as, eq, by simpa [listWhole] using has, .plain laid ?_ none⟩
    simpa [clauseBetween] using all

/-- What is made of readings with a mark between any two.  There are as many marks as readings only
    if there is one more, before the first. -/
theorem Matches.separated_made {mark : Punctuator} {item : Rule} {arg arg' : ConstArg}
    {parts : List Part} {f : (c : Node) → c ∈ n.children → Build α}
    (h : Matches Standard.productions (.sequence [.optional (.token (.punctuator mark)),
      .call item arg, .many (.sequence [.token (.punctuator mark), .call item arg'])]) taken parts)
    (nodes : n.nodes item = nodesUnder item parts)
    (tokens : n.tokens (.punctuator mark) = tokensUnder (.punctuator mark) parts)
    (made : ∀ c hc {taken}, ReadFrom item c taken → Made signs whole c taken (f c hc)) :
    ∃ as, n.withEach item f = .ok as ∧ listWhole whole as = true ∧
      Spells taken (n.leadingMark mark item ++ superfluousOfParts parts)
        (separated mark signs as) := by
  obtain ⟨lead?, _, _, rfl, rfl, -, h⟩ := h.row_optionalToken
  obtain ⟨c, _, _, _, rfl, rfl, first, h⟩ := h.row_call
  obtain ⟨_, _, parts, _, rfl, rfl, others, h⟩ := h.row_cons
  obtain ⟨rfl, rfl⟩ := h.row_nil
  obtain ⟨cs, marks, others, count, under, marked, spare⟩ := others.of_marked
  have nodes : n.nodes item = c :: cs := by simpa [under] using nodes
  have tokens : n.tokens (.punctuator mark) = lead?.toList ++ marks := by simpa [marked] using tokens
  obtain ⟨as, eq, has, spells⟩ := first.withEach_separated others nodes made
  -- of the others there is one mark for each but the first reading
  have leading : n.leadingMark mark item = lead?.toList := by
    unfold Node.leadingMark
    rw [nodes, tokens]
    cases lead? <;> simp [count]
  have lead : Spells lead?.toList lead?.toList [] := by
    cases lead? with
    | none => exact .nil
    | some t => exact .drop t
  refine ⟨as, eq, has, ?_⟩
  simpa [leading, spare] using lead.append spells

end Makers

end GraphQL
