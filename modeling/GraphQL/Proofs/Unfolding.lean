/-
  Rows unfolded from the left.

  `Unfolds g row kinds rest` says that leftmost expansion of `row` can emit `kinds` and then stand
  before `rest`.  It is the notion that stands behind both questions asked of a table before it is
  used: which rules can call themselves before a token is matched, and with which demands a row can
  begin.  Unlike an expansion (`Emits`) it need not come to an end, so it also sees rules that
  call others for ever.

  `Enumerates g depth row paths` is the search for the beginnings of a row, depth first and with
  nothing to bound it: it emits a demand, enters a rule, or takes one branch after the other, and
  returns at the depth or at the end of the row.  A search that does not end has no derivation.
  Where it does end it has found all there is and nothing else (`Enumerates.mem_iff`); both halves
  of that are inductions on the search, because it asks at each row exactly what leftmost expansion
  can do there.  From a rule that reaches itself on the left no search ends
  (`Enumerates.not_reaches`).
-/
import GraphQL.Proofs.Expansion

namespace GraphQL

/-! ## Leftmost expansion -/

/-- Leftmost expansion of productions in a row, stopped anywhere: the demands that it has emitted
    and the row that it stands before. -/
inductive Unfolds (g : Productions) :
    List Production → List TokenKind → List Production → Prop where
  | stop {row} : Unfolds g row [] row
  | token {kind row kinds rest} (others : Unfolds g row kinds rest) :
      Unfolds g (.token kind :: row) (kind :: kinds) rest
  | call {rule arg row kinds rest} (body : Unfolds g (g.get rule :: row) kinds rest) :
      Unfolds g (.call rule arg :: row) kinds rest
  | sequence {items row kinds rest} (inside : Unfolds g (items ++ row) kinds rest) :
      Unfolds g (.sequence items :: row) kinds rest
  | skip {body row kinds rest} (others : Unfolds g row kinds rest) :
      Unfolds g (.optional body :: row) kinds rest
  | enter {body row kinds rest} (inside : Unfolds g (body :: row) kinds rest) :
      Unfolds g (.optional body :: row) kinds rest
  | done {body row kinds rest} (others : Unfolds g row kinds rest) :
      Unfolds g (.many body :: row) kinds rest
  | again {body row kinds rest} (round : Unfolds g (body :: .many body :: row) kinds rest) :
      Unfolds g (.many body :: row) kinds rest
  | once {body row kinds rest} (round : Unfolds g (body :: .many body :: row) kinds rest) :
      Unfolds g (.atLeastOne body :: row) kinds rest
  | branch {gate p alternatives row kinds rest} (chosen : (gate, p) ∈ alternatives)
      (inside : Unfolds g (p :: row) kinds rest) :
      Unfolds g (.choice alternatives :: row) kinds rest

namespace Unfolds

variable {g : Productions} {row mid rest : List Production} {kinds more : List TokenKind}

/-- What has been stopped can be taken up again. -/
theorem trans (first : Unfolds g row kinds mid) (second : Unfolds g mid more rest) :
    Unfolds g row (kinds ++ more) rest := by
  induction first with
  | stop => exact second
  | token _ ih => exact .token (ih second)
  | call _ ih => exact .call (ih second)
  | sequence _ ih => exact .sequence (ih second)
  | skip _ ih => exact .skip (ih second)
  | enter _ ih => exact .enter (ih second)
  | done _ ih => exact .done (ih second)
  | again _ ih => exact .again (ih second)
  | once _ ih => exact .once (ih second)
  | branch chosen _ ih => exact .branch chosen (ih second)

/-- What stands behind a row does not matter to it. -/
theorem before (h : Unfolds g row kinds rest) (next : List Production) :
    Unfolds g (row ++ next) kinds (rest ++ next) := by
  induction h with
  | stop => exact .stop
  | token _ ih => exact .token ih
  | call _ ih => exact .call ih
  | sequence _ ih =>
    rw [List.append_assoc] at ih
    exact .sequence ih
  | skip _ ih => exact .skip ih
  | enter _ ih => exact .enter ih
  | done _ ih => exact .done ih
  | again _ ih => exact .again ih
  | once _ ih => exact .once ih
  | branch chosen _ ih => exact .branch chosen ih

end Unfolds

/-- A whole expansion is a leftmost one that stands behind its production. -/
theorem Emits.unfolds {g : Productions} {p : Production} {kinds : List TokenKind}
    (h : Emits g p kinds) (row : List Production) : Unfolds g (p :: row) kinds row := by
  induction h generalizing row with
  | token => exact .token .stop
  | call _ ih => exact .call (ih row)
  | nil => exact .sequence .stop
  | skip => exact .skip .stop
  | done => exact .done .stop
  | enter _ ih => exact .enter (ih row)
  | branch chosen _ ih => exact .branch chosen (ih row)
  | again _ _ ih₁ ih₂ => exact .again ((ih₁ _).trans (ih₂ row))
  | once _ _ ih₁ ih₂ => exact .once ((ih₁ _).trans (ih₂ row))
  | @cons p items kinds more _ _ ih₁ ih₂ =>
    -- the others are expanded as a row of their own, and here as part of a longer one
    have others : Unfolds g (items ++ row) more row := by
      cases ih₂ row with
      | sequence inside => exact inside
    exact .sequence ((ih₁ (items ++ row)).trans others)

/-! ## Beginnings of rows -/

/-- A path with which a row can begin, to a depth: leftmost expansion emits it, and either it is cut
    off at the depth or it is shorter and nothing is left of the row. -/
def Opens (g : Productions) (depth : Nat) (row : List Production) (path : Path) : Prop :=
  ∃ rest, Unfolds g row path rest ∧ (path.length = depth ∨ path.length < depth ∧ rest = [])

/-- An opening is a path as long as the depth, or a shorter one behind which the row ends. -/
theorem opens_iff {g : Productions} {depth : Nat} {row : List Production} {path : Path} :
    Opens g depth row path ↔ (path.length = depth ∧ ∃ rest, Unfolds g row path rest) ∨
      (path.length < depth ∧ Unfolds g row path []) := by
  constructor
  · rintro ⟨rest, h, long | ⟨short, rfl⟩⟩
    · exact .inl ⟨long, rest, h⟩
    · exact .inr ⟨short, h⟩
  · rintro (⟨long, rest, h⟩ | ⟨short, h⟩)
    · exact ⟨rest, h, .inl long⟩
    · exact ⟨[], h, .inr ⟨short, rfl⟩⟩

namespace Opens

variable {g : Productions} {depth : Nat} {row other : List Production} {path : Path}

/-- Where one row unfolds the other does too, so it begins in the same ways.  A row that has not
    been cut off has not been stopped at once. -/
theorem map (h : Opens g (depth + 1) row path)
    (unfolds : ∀ rest, Unfolds g row path rest → (path = [] → rest = []) →
      Unfolds g other path rest) : Opens g (depth + 1) other path := by
  obtain ⟨rest, h, cut⟩ := h
  refine ⟨rest, unfolds rest h ?_, cut⟩
  intro nothing
  rcases cut with long | ⟨-, ended⟩
  · rw [nothing] at long
    cases long
  · exact ended

/-- A demand in front makes a path longer by one. -/
theorem token (h : Opens g depth row path) (kind : TokenKind) :
    Opens g (depth + 1) (.token kind :: row) (kind :: path) := by
  obtain ⟨rest, h, cut⟩ := h
  refine ⟨rest, .token h, ?_⟩
  rcases cut with long | ⟨short, nothing⟩
  · exact .inl (congrArg Nat.succ long)
  · exact .inr ⟨Nat.succ_lt_succ short, nothing⟩

end Opens

/-! ## The search -/

/-- The search for the paths with which a row begins, with what it finds, in the order in which it
    is found and with repeats. -/
inductive Enumerates (g : Productions) : (depth : Nat) → List Production → List Path → Prop where
  | full {row} : Enumerates g 0 row [[]]
  | ended {depth} : Enumerates g (depth + 1) [] [[]]
  | token {depth kind row paths} (others : Enumerates g depth row paths) :
      Enumerates g (depth + 1) (.token kind :: row) (paths.map (kind :: ·))
  | call {depth rule arg row paths} (body : Enumerates g (depth + 1) (g.get rule :: row) paths) :
      Enumerates g (depth + 1) (.call rule arg :: row) paths
  | sequence {depth items row paths} (inside : Enumerates g (depth + 1) (items ++ row) paths) :
      Enumerates g (depth + 1) (.sequence items :: row) paths
  | optional {depth body row paths more}
      (inside : Enumerates g (depth + 1) (body :: row) paths)
      (others : Enumerates g (depth + 1) row more) :
      Enumerates g (depth + 1) (.optional body :: row) (paths ++ more)
  | many {depth body row paths more}
      (round : Enumerates g (depth + 1) (body :: .many body :: row) paths)
      (others : Enumerates g (depth + 1) row more) :
      Enumerates g (depth + 1) (.many body :: row) (paths ++ more)
  | atLeastOne {depth body row paths}
      (round : Enumerates g (depth + 1) (body :: .many body :: row) paths) :
      Enumerates g (depth + 1) (.atLeastOne body :: row) paths
  | noBranch {depth row} : Enumerates g (depth + 1) (.choice [] :: row) []
  | branch {depth gate p alternatives row paths more}
      (inside : Enumerates g (depth + 1) (p :: row) paths)
      (others : Enumerates g (depth + 1) (.choice alternatives :: row) more) :
      Enumerates g (depth + 1) (.choice ((gate, p) :: alternatives) :: row) (paths ++ more)

namespace Enumerates

variable {g : Productions} {depth : Nat} {row : List Production} {paths : List Path}

/-- What the search finds are beginnings of its row. -/
theorem opens (h : Enumerates g depth row paths) : ∀ path ∈ paths, Opens g depth row path := by
  induction h with
  | full =>
    intro path mem
    obtain rfl := List.mem_singleton.mp mem
    exact ⟨_, .stop, .inl rfl⟩
  | ended =>
    intro path mem
    obtain rfl := List.mem_singleton.mp mem
    exact ⟨[], .stop, .inr ⟨Nat.succ_pos _, rfl⟩⟩
  | token _ ih =>
    intro path mem
    obtain ⟨path, inner, rfl⟩ := List.mem_map.mp mem
    exact (ih path inner).token _
  | call _ ih => exact fun path mem => (ih path mem).map fun _ h _ => .call h
  | sequence _ ih => exact fun path mem => (ih path mem).map fun _ h _ => .sequence h
  | optional _ _ ih₁ ih₂ =>
    intro path mem
    rcases List.mem_append.mp mem with mem | mem
    · exact (ih₁ path mem).map fun _ h _ => .enter h
    · exact (ih₂ path mem).map fun _ h _ => .skip h
  | many _ _ ih₁ ih₂ =>
    intro path mem
    rcases List.mem_append.mp mem with mem | mem
    · exact (ih₁ path mem).map fun _ h _ => .again h
    · exact (ih₂ path mem).map fun _ h _ => .done h
  | atLeastOne _ ih => exact fun path mem => (ih path mem).map fun _ h _ => .once h
  | noBranch => exact nofun
  | branch _ _ ih₁ ih₂ =>
    intro path mem
    rcases List.mem_append.mp mem with mem | mem
    · exact (ih₁ path mem).map fun _ h _ => .branch List.mem_cons_self h
    · refine (ih₂ path mem).map fun rest h moved => ?_
      -- a later branch is a branch of the whole choice
      cases h with
      | stop => cases moved rfl
      | branch chosen inside => exact .branch (List.mem_cons_of_mem _ chosen) inside

/-- What is stopped at once neither reaches the depth nor the end of its row. -/
theorem not_stopped {p : Production} {depth : Nat} {row : List Production} :
    ¬ (([] : Path).length = depth + 1 ∨ ([] : Path).length < depth + 1 ∧ p :: row = []) := by
  rintro (long | ⟨-, ended⟩)
  · cases long
  · cases ended

/-- The search finds every beginning of its row. -/
theorem complete (h : Enumerates g depth row paths) :
    ∀ {path rest}, Unfolds g row path rest →
      (path.length = depth ∨ path.length < depth ∧ rest = []) → path ∈ paths := by
  induction h with
  | full =>
    -- depth zero: only the empty path is that long
    intro path rest _ cut
    have nothing : path.length = 0 := by omega
    exact List.mem_singleton.mpr (List.length_eq_zero_iff.mp nothing)
  | ended =>
    intro path rest h _
    cases h with
    | stop => exact List.mem_singleton_self _
  | token _ ih =>
    -- a token takes one off the depth, on both sides
    intro path rest h cut
    cases h with
    | stop => exact absurd cut not_stopped
    | token others =>
      refine List.mem_map_of_mem (ih others ?_)
      rcases cut with long | ⟨short, ended⟩
      · exact .inl (Nat.succ.inj long)
      · exact .inr ⟨Nat.lt_of_succ_lt_succ short, ended⟩
  | call _ ih =>
    intro path rest h cut
    cases h with
    -- no path is cut here, since neither is the depth used up nor is the row at its end
    | stop => exact absurd cut not_stopped
    | call body => exact ih body cut
  | sequence _ ih =>
    intro path rest h cut
    cases h with
    | stop => exact absurd cut not_stopped
    | sequence inside => exact ih inside cut
  | optional _ _ ih₁ ih₂ =>
    intro path rest h cut
    cases h with
    | stop => exact absurd cut not_stopped
    | enter inside => exact List.mem_append_left _ (ih₁ inside cut)
    | skip others => exact List.mem_append_right _ (ih₂ others cut)
  | many _ _ ih₁ ih₂ =>
    intro path rest h cut
    cases h with
    | stop => exact absurd cut not_stopped
    | again round => exact List.mem_append_left _ (ih₁ round cut)
    | done others => exact List.mem_append_right _ (ih₂ others cut)
  | atLeastOne _ ih =>
    intro path rest h cut
    cases h with
    | stop => exact absurd cut not_stopped
    | once round => exact ih round cut
  | noBranch =>
    intro path rest h cut
    cases h with
    | stop => exact absurd cut not_stopped
    | branch chosen _ => cases chosen
  | branch _ _ ih₁ ih₂ =>
    intro path rest h cut
    cases h with
    | stop => exact absurd cut not_stopped
    | branch chosen inside =>
      rcases List.mem_cons.mp chosen with here | later
      · cases here
        exact List.mem_append_left _ (ih₁ inside cut)
      · exact List.mem_append_right _ (ih₂ (.branch later inside) cut)

/-- A search that ends has found the beginnings of its row and nothing else. -/
theorem mem_iff (h : Enumerates g depth row paths) {path : Path} :
    path ∈ paths ↔ Opens g depth row path := by
  constructor
  · exact h.opens path
  · rintro ⟨rest, unfolds, cut⟩
    exact h.complete unfolds cut

/-- The search does not depend on anything but the row and the depth. -/
theorem unique (h : Enumerates g depth row paths) :
    ∀ {other}, Enumerates g depth row other → other = paths := by
  induction h with
  | full =>
    intro other h
    cases h
    rfl
  | ended =>
    intro other h
    cases h
    rfl
  | token _ ih =>
    intro other h
    cases h with
    | token others => rw [ih others]
  | call _ ih =>
    intro other h
    cases h with
    | call body => exact ih body
  | sequence _ ih =>
    intro other h
    cases h with
    | sequence inside => exact ih inside
  | optional _ _ ih₁ ih₂ =>
    intro other h
    cases h with
    | optional inside others => rw [ih₁ inside, ih₂ others]
  | many _ _ ih₁ ih₂ =>
    intro other h
    cases h with
    | many round others => rw [ih₁ round, ih₂ others]
  | atLeastOne _ ih =>
    intro other h
    cases h with
    | atLeastOne round => exact ih round
  | noBranch =>
    intro other h
    cases h
    rfl
  | branch _ _ ih₁ ih₂ =>
    intro other h
    cases h with
    | branch inside others => rw [ih₁ inside, ih₂ others]

/-- No search ends from a row on whose left a rule stands that reaches itself.  Each call of the
    search is made by one that has to wait for it, and on the way from a call of the rule to the
    next nothing has been emitted. -/
theorem not_reaches {r : Rule}
    (recursive : ∃ arg rest, Unfolds g [g.get r] [] (.call r arg :: rest))
    (h : Enumerates g depth row paths) (deep : 0 < depth) :
    ∀ arg rest, ¬ Unfolds g row [] (.call r arg :: rest) := by
  induction h with
  | full => exact absurd deep (Nat.lt_irrefl 0)
  | ended =>
    intro arg rest h
    cases h
  | token _ _ =>
    -- a row that begins with a token emits it before it reaches a call
    intro arg rest h
    cases h
  | @call _ _ _ row _ _ ih =>
    intro arg rest h
    cases h with
    | stop =>
      -- the call of the rule itself: it reaches itself again, within the search of its body
      obtain ⟨arg', rest', again⟩ := recursive
      exact ih deep arg' _ (again.before row)
    | call body => exact ih deep _ _ body
  | sequence _ ih =>
    intro arg rest h
    cases h with
    | sequence inside => exact ih deep _ _ inside
  | optional _ _ ih₁ ih₂ =>
    intro arg rest h
    cases h with
    | enter inside => exact ih₁ deep _ _ inside
    | skip others => exact ih₂ deep _ _ others
  | many _ _ ih₁ ih₂ =>
    intro arg rest h
    cases h with
    | again round => exact ih₁ deep _ _ round
    | done others => exact ih₂ deep _ _ others
  | atLeastOne _ ih =>
    intro arg rest h
    cases h with
    | once round => exact ih deep _ _ round
  | noBranch =>
    intro arg rest h
    cases h with
    | branch chosen _ => cases chosen
  | branch _ _ ih₁ ih₂ =>
    intro arg rest h
    cases h with
    | branch chosen inside =>
      rcases List.mem_cons.mp chosen with here | later
      · cases here
        exact ih₁ deep _ _ inside
      · exact ih₂ deep _ _ (.branch later inside)

end Enumerates

end GraphQL
