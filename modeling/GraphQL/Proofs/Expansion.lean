/-
  The openings of a row are all there are.

  `Emits g p kinds` says that `p` can be expanded to the demands `kinds`; flags, gates and tokens are
  left aside.  The tokens that a derivation takes meet such demands one by one
  (`Derives.exists_emits`).  And the openings of a row to depth `k` contain the first `k` demands of
  each of its expansions (`openings_complete`).

  The second fact needs a sound table.  Without ranks that fall along left calls the number of rules
  would not bound the calls on a left edge, and a repetition of nothing would have expansions that
  its starts do not show.  So each step from a start to what is left to match also hands on that
  nothing in there repeats what can match nothing.
-/
import GraphQL.Proofs.Derivation
import GraphQL.Proofs.Ranking
import Mathlib.Data.List.Forall2

namespace GraphQL

/-! ## Expansions -/

/-- The demands to which a production can be expanded. -/
inductive Emits (g : Productions) : Production → List TokenKind → Prop where
  | token {kind} : Emits g (.token kind) [kind]
  | call {rule arg kinds} (body : Emits g (g.get rule) kinds) : Emits g (.call rule arg) kinds
  | nil : Emits g (.sequence []) []
  | cons {p items kinds more} (first : Emits g p kinds) (others : Emits g (.sequence items) more) :
      Emits g (.sequence (p :: items)) (kinds ++ more)
  | skip {body} : Emits g (.optional body) []
  | enter {body kinds} (inside : Emits g body kinds) : Emits g (.optional body) kinds
  | done {body} : Emits g (.many body) []
  | again {body kinds more} (first : Emits g body kinds) (others : Emits g (.many body) more) :
      Emits g (.many body) (kinds ++ more)
  | once {body kinds more} (first : Emits g body kinds) (others : Emits g (.many body) more) :
      Emits g (.atLeastOne body) (kinds ++ more)
  | branch {gate p alternatives kinds} (chosen : (gate, p) ∈ alternatives)
      (inside : Emits g p kinds) : Emits g (.choice alternatives) kinds

/-- Whether tokens meet demands, one by one. -/
abbrev Meets (tokens : List Token) (kinds : List TokenKind) : Prop :=
  List.Forall₂ (fun t kind => t.meets kind = true) tokens kinds

namespace Emits

variable {g : Productions} {p : Production} {kinds more : List TokenKind}

/-- Rows that are expanded one after the other are expanded as one row. -/
theorem append {xs ys : List Production} (first : Emits g (.sequence xs) kinds)
    (second : Emits g (.sequence ys) more) : Emits g (.sequence (xs ++ ys)) (kinds ++ more) := by
  induction xs generalizing kinds with
  | nil =>
    cases first
    exact second
  | cons x xs ih =>
    cases first with
    | cons head others =>
      rw [List.append_assoc]
      exact .cons head (ih others)

/-- A production alone is a row. -/
theorem row (h : Emits g p kinds) : Emits g (.sequence [p]) kinds := by
  have alone := cons h nil
  rwa [List.append_nil] at alone

end Emits

/-- The tokens that a derivation takes meet the demands of an expansion. -/
theorem Derives.exists_emits {g : Productions} {allowed : Rule → List Part → List Token → Prop}
    {n : Nat} {constant : Bool} {p : Production} {tokens rest : List Token} {parts : List Part}
    (h : Derives g allowed n constant p tokens parts rest) :
    ∃ taken kinds, tokens = taken ++ rest ∧ Meets taken kinds ∧ Emits g p kinds := by
  -- by induction on the derivation: each token that it takes meets a demand that it emits
  induction h with
  | token met => exact ⟨[_], [_], rfl, .cons met .nil, .token⟩
  | call _ _ ih =>
    obtain ⟨taken, kinds, ht, meets, emits⟩ := ih
    exact ⟨taken, kinds, ht, meets, .call emits⟩
  | nil => exact ⟨[], [], rfl, .nil, .nil⟩
  | skip => exact ⟨[], [], rfl, .nil, .skip⟩
  | done => exact ⟨[], [], rfl, .nil, .done⟩
  | enter _ ih =>
    obtain ⟨taken, kinds, ht, meets, emits⟩ := ih
    exact ⟨taken, kinds, ht, meets, .enter emits⟩
  | branch chosen _ _ ih =>
    obtain ⟨taken, kinds, ht, meets, emits⟩ := ih
    exact ⟨taken, kinds, ht, meets, .branch chosen emits⟩
  | cons _ _ ih₁ ih₂ =>
    obtain ⟨taken, kinds, rfl, meets, emits⟩ := ih₁
    obtain ⟨more, moreKinds, rfl, meetsMore, emitsMore⟩ := ih₂
    exact ⟨taken ++ more, _, by simp, List.rel_append meets meetsMore, .cons emits emitsMore⟩
  | again _ _ ih₁ ih₂ =>
    obtain ⟨taken, kinds, rfl, meets, emits⟩ := ih₁
    obtain ⟨more, moreKinds, rfl, meetsMore, emitsMore⟩ := ih₂
    exact ⟨taken ++ more, _, by simp, List.rel_append meets meetsMore, .again emits emitsMore⟩
  | once _ _ ih₁ ih₂ =>
    obtain ⟨taken, kinds, rfl, meets, emits⟩ := ih₁
    obtain ⟨more, moreKinds, rfl, meetsMore, emitsMore⟩ := ih₂
    exact ⟨taken ++ more, _, by simp, List.rel_append meets meetsMore, .once emits emitsMore⟩

/-! ## Expansions to nothing -/

namespace Production

/-- A choice may be empty if an alternative may. -/
theorem someNullable_of_mem {known : Rule → Bool} {gate : Gate} {p : Production}
    {alternatives : List (Gate × Production)} (h : (gate, p) ∈ alternatives)
    (nothing : p.nullable known = true) : someNullable known alternatives = true := by
  induction alternatives with
  | nil => cases h
  | cons alternative rest ih =>
    rcases List.mem_cons.mp h with rfl | h
    · simp [someNullable, nothing]
    · simp [someNullable, ih h]

/-- An alternative has no left calls but those of the choice. -/
theorem leftCalls_subset_of_mem {known : Rule → Bool} {gate : Gate} {p : Production}
    {alternatives : List (Gate × Production)} (h : (gate, p) ∈ alternatives) :
    p.leftCalls known ⊆ leftCallsOfAlternatives known alternatives := by
  induction alternatives with
  | nil => cases h
  | cons alternative rest ih =>
    rcases List.mem_cons.mp h with rfl | h
    · exact List.subset_append_left ..
    · exact List.Subset.trans (ih h) (List.subset_append_right ..)

/-- Nor has it other starts. -/
theorem starts_subset_of_mem {enter : Rule → List Start} {gate : Gate} {p : Production}
    {alternatives : List (Gate × Production)} (h : (gate, p) ∈ alternatives) :
    p.starts enter ⊆ startsOfAlternatives enter alternatives := by
  induction alternatives with
  | nil => cases h
  | cons alternative rest ih =>
    rcases List.mem_cons.mp h with rfl | h
    · exact List.subset_append_left ..
    · exact List.Subset.trans (ih h) (List.subset_append_right ..)

/-- Nor does it repeat something that may be empty, if the choice does not. -/
theorem repeatsNullable_of_mem {known : Rule → Bool} {gate : Gate} {p : Production}
    {alternatives : List (Gate × Production)} (h : (gate, p) ∈ alternatives)
    (sound : repeatsNullableInAlternatives known alternatives = false) :
    p.repeatsNullable known = false := by
  induction alternatives with
  | nil => cases h
  | cons alternative rest ih =>
    obtain ⟨first, others⟩ := Bool.or_eq_false_iff.mp sound
    rcases List.mem_cons.mp h with rfl | h
    · exact first
    · exact ih h others

theorem repeatsNullableInAll_append {known : Rule → Bool} {xs ys : List Production} :
    repeatsNullableInAll known (xs ++ ys) = false ↔
      repeatsNullableInAll known xs = false ∧ repeatsNullableInAll known ys = false := by
  induction xs with
  | nil => simp [repeatsNullableInAll]
  | cons x xs ih => simp [repeatsNullableInAll, ih, and_assoc]

end Production

/-- What is expanded to nothing can match nothing, if each rule that can is listed. -/
theorem Emits.nullable {g : Productions} {known : Rule → Bool} {p : Production}
    {kinds : List TokenKind} (h : Emits g p kinds)
    (closed : ∀ r, (g.get r).nullable known = true → known r = true) (nothing : kinds = []) :
    p.nullable known = true := by
  induction h with
  | token => cases nothing
  | call _ ih => exact closed _ (ih nothing)
  | nil => rfl
  | skip => rfl
  | enter => rfl
  | done => rfl
  | again => rfl
  | cons _ _ ih₁ ih₂ =>
    obtain ⟨h₁, h₂⟩ := List.append_eq_nil_iff.mp nothing
    exact Bool.and_eq_true_iff.mpr ⟨ih₁ h₁, ih₂ h₂⟩
  | once _ _ ih₁ => exact ih₁ (List.append_eq_nil_iff.mp nothing).1
  | branch chosen _ ih => exact Production.someNullable_of_mem chosen (ih nothing)

namespace Productions.Ranked

variable {g : Productions} {nullable : Rule → Bool} {rank : Rule → Nat}
  {p : Production} {kinds : List TokenKind}

/-- Only what is listed as able to match nothing is expanded to nothing. -/
theorem nullable_of_emits (ranked : g.Ranked nullable rank) (h : Emits g p kinds)
    (nothing : kinds = []) : p.nullable nullable = true := h.nullable ranked.closed nothing

end Productions.Ranked

/-! ## How expansions begin -/

/-- An expansion begins as one of some starts says, and what the start leaves is expanded to the
    others; nothing in there repeats what can match nothing. -/
def Begins (g : Productions) (nullable : Rule → Bool) (starts : List Start) :
    List TokenKind → Prop
  | [] => none ∈ starts
  | kind :: kinds => ∃ row, some (kind, row) ∈ starts ∧ Emits g (.sequence row) kinds ∧
      Production.repeatsNullableInAll nullable row = false

namespace Begins

variable {g : Productions} {nullable : Rule → Bool} {starts later : List Start}
  {kinds more : List TokenKind}

/-- What begins with one of some starts begins with one of more. -/
theorem mono (h : Begins g nullable starts kinds) (grow : starts ⊆ later) :
    Begins g nullable later kinds := by
  cases kinds with
  | nil => exact grow h
  | cons kind kinds =>
    obtain ⟨row, hrow, emits, sound⟩ := h
    exact ⟨row, grow hrow, emits, sound⟩

/-- What goes on with a row begins as its first part does, and as the row does if that part is
    expanded to nothing. -/
theorem andThen {row : List Production} (h : Begins g nullable starts kinds)
    (others : Emits g (.sequence row) more)
    (sound : Production.repeatsNullableInAll nullable row = false)
    (begins : kinds = [] → Begins g nullable later more) :
    Begins g nullable (starts.flatMap (Start.andThen row fun _ => later)) (kinds ++ more) := by
  cases kinds with
  | nil =>
    refine (begins rfl).mono fun start hstart => ?_
    exact List.mem_flatMap.mpr ⟨none, h, hstart⟩
  | cons kind kinds =>
    obtain ⟨first, hfirst, emits, soundFirst⟩ := h
    refine ⟨first ++ row, List.mem_flatMap.mpr ⟨_, hfirst, ?_⟩, emits.append others,
      Production.repeatsNullableInAll_append.mpr ⟨soundFirst, sound⟩⟩
    exact List.mem_singleton_self _

end Begins

namespace Productions.Ranked

variable {g : Productions} {nullable : Rule → Bool} {rank : Rule → Nat}

/-- A round of a repetition begins as its body does: a body that is repeated matches something. -/
theorem begins_round (ranked : g.Ranked nullable rank) {body : Production} {starts : List Start}
    {kinds more : List TokenKind} (first : Emits g body kinds) (others : Emits g (.many body) more)
    (sound : (Production.many body).repeatsNullable nullable = false)
    (begins : Begins g nullable starts kinds) :
    Begins g nullable (starts.flatMap (Start.andThen [.many body] fun _ => []))
      (kinds ++ more) := by
  have soundRow : Production.repeatsNullableInAll nullable [.many body] = false :=
    Bool.or_eq_false_iff.mpr ⟨sound, rfl⟩
  refine begins.andThen others.row soundRow fun nothing => ?_
  have taking := (Bool.or_eq_false_iff.mp sound).1
  rw [ranked.nullable_of_emits first nothing] at taking
  cases taking

/-- An expansion begins as the starts of its production say, if this is so for the rules that are
    called on the left.  Induction on the expansion. -/
theorem begins_starts (ranked : g.Ranked nullable rank) {enter : Rule → List Start}
    {p : Production} {kinds : List TokenKind} (h : Emits g p kinds)
    (called : ∀ q ∈ p.leftCalls nullable, ∀ kinds, Emits g (g.get q) kinds →
      Begins g nullable (enter q) kinds)
    (sound : p.repeatsNullable nullable = false) : Begins g nullable (p.starts enter) kinds := by
  induction h with
  | token => exact ⟨[], List.mem_singleton_self _, .nil, rfl⟩
  | call body => exact called _ (List.mem_singleton_self _) _ body
  | nil => exact List.mem_singleton_self _
  | skip => exact List.mem_append_right _ (List.mem_singleton_self _)
  | done => exact List.mem_append_right _ (List.mem_singleton_self _)
  | enter _ ih => exact (ih called sound).mono (List.subset_append_left ..)
  | branch chosen _ ih =>
    have begins := ih (fun q hq => called q (Production.leftCalls_subset_of_mem chosen hq))
      (Production.repeatsNullable_of_mem chosen sound)
    exact begins.mono (Production.starts_subset_of_mem chosen)
  | cons first others ih₁ ih₂ =>
    obtain ⟨soundFirst, soundOthers⟩ := Bool.or_eq_false_iff.mp sound
    have begins := ih₁ (fun q hq => called q (List.mem_append_left _ hq)) soundFirst
    refine begins.andThen others soundOthers fun nothing => ?_
    -- behind a part that matches nothing the next calls are on the left edge too
    have passed := ranked.nullable_of_emits first nothing
    refine ih₂ (fun q hq => called q (List.mem_append_right _ ?_)) soundOthers
    rw [if_pos passed]
    exact hq
  | again first others ih₁ =>
    have begins := ih₁ called (Bool.or_eq_false_iff.mp sound).2
    have round := ranked.begins_round first others sound begins
    exact round.mono (List.subset_append_left ..)
  | once first others ih₁ =>
    have begins := ih₁ called (Bool.or_eq_false_iff.mp sound).2
    exact ranked.begins_round first others sound begins

/-- With more calls left than its rank, the starts of a rule begin all its expansions. -/
theorem begins_startsWithin (ranked : g.Ranked nullable rank) {calls : Nat} {r : Rule}
    (enough : rank r < calls) {kinds : List TokenKind} (h : Emits g (g.get r) kinds) :
    Begins g nullable (g.startsWithin calls r) kinds := by
  induction calls generalizing r kinds with
  | zero => exact absurd enough (Nat.not_lt_zero _)
  | succ calls ih =>
    refine ranked.begins_starts h (fun q hq more emits => ?_) (ranked.repeats r)
    have lower := ranked.falls r q hq
    exact ih (by omega) emits

/-- The starts of a row begin all its expansions. -/
theorem begins_row (ranked : g.Ranked nullable rank) {row : List Production}
    (sound : Production.repeatsNullableInAll nullable row = false) {kinds : List TokenKind}
    (h : Emits g (.sequence row) kinds) : Begins g nullable (g.starts row) kinds := by
  refine ranked.begins_starts h (fun q _ more emits => ?_) sound
  exact ranked.begins_startsWithin (ranked.bounded q) emits

/-! ## Openings -/

/-- The first demands of each expansion of a row are one of its openings. -/
theorem openings_complete (ranked : g.Ranked nullable rank) (k : Nat) {row : List Production}
    (sound : Production.repeatsNullableInAll nullable row = false) {kinds : List TokenKind}
    (h : Emits g (.sequence row) kinds) : kinds.take k ∈ g.openings k row := by
  induction k generalizing row kinds with
  | zero => exact List.mem_singleton_self _
  | succ k ih =>
    have begins := ranked.begins_row sound h
    rw [Productions.openings, mem_distinct, List.mem_flatMap]
    cases kinds with
    | nil => exact ⟨none, begins, List.mem_singleton_self _⟩
    | cons kind kinds =>
      obtain ⟨rest, hrest, emits, soundRest⟩ := begins
      exact ⟨some (kind, rest), hrest, List.mem_map_of_mem (ih soundRest emits)⟩

end Productions.Ranked

/-- No opening is longer than its depth. -/
theorem length_le_of_mem_openings {g : Productions} {k : Nat} {row : List Production} {path : Path}
    (h : path ∈ g.openings k row) : path.length ≤ k := by
  induction k generalizing row path with
  | zero =>
    obtain rfl := List.mem_singleton.mp h
    exact Nat.le_refl 0
  | succ k ih =>
    rw [Productions.openings, mem_distinct, List.mem_flatMap] at h
    obtain ⟨start, -, hpath⟩ := h
    cases start with
    | none =>
      obtain rfl := List.mem_singleton.mp hpath
      exact Nat.zero_le _
    | some start =>
      obtain ⟨path, hmem, rfl⟩ := List.mem_map.mp hpath
      exact Nat.succ_le_succ (ih hmem)

end GraphQL
