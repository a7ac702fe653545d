/-
  What the openings of a row say.

  `openings_complete` finds every expansion of a row among its openings.  This is the other
  direction: an opening that is shorter than the depth to which it was looked for is an expansion,
  because only the end of the row can have ended it.  A longer one need not begin any, since a rule
  that calls itself without end has openings and no expansion.  So openings are followed back start
  by start, and what a start says (`Start.Sound`) is a promise about whatever is left to match.

  The same induction shows that an opening asks for nothing that no production asks for.
-/
import GraphQL.Proofs.Demands
import GraphQL.Proofs.Expansion

namespace GraphQL

/-! ## What starts stand for -/

/-- An expansion of a row is one of each of its parts. -/
theorem Emits.exists_append {g : Productions} {xs ys : List Production} {kinds : List TokenKind}
    (h : Emits g (.sequence (xs ++ ys)) kinds) :
    ∃ front back, kinds = front ++ back ∧ Emits g (.sequence xs) front ∧
      Emits g (.sequence ys) back := by
  induction xs generalizing kinds with
  | nil => exact ⟨[], kinds, rfl, .nil, h⟩
  | cons x xs ih =>
    cases h with
    | @cons _ _ first more head others =>
      obtain ⟨front, back, rfl, hfront, hback⟩ := ih others
      exact ⟨first ++ front, back, (List.append_assoc ..).symm, .cons head hfront, hback⟩

theorem Production.demandsOfAll_append (xs ys : List Production) :
    demandsOfAll (xs ++ ys) = demandsOfAll xs ++ demandsOfAll ys := by
  induction xs with
  | nil => rfl
  | cons x xs ih => rw [List.cons_append, demandsOfAll, demandsOfAll, ih, List.append_assoc]

/-- What a start of a production says is true: nothing is an expansion, or with the demand in front
    each expansion of what is left is one.  And neither asks for what nothing asks for. -/
def Start.Sound (g : Productions) (p : Production) : Start → Prop
  | none => Emits g p []
  | some (kind, row) =>
    (∀ kinds, Emits g (.sequence row) kinds → Emits g p (kind :: kinds)) ∧
      ∀ e, g.NeverExpects e → e ∉ p.demands → e ≠ kind ∧ e ∉ (Production.sequence row).demands

namespace Start.Sound

variable {g : Productions} {p : Production} {start : Start}

/-- What begins a production begins also one that expands to whatever this does. -/
theorem map {other : Production} (h : start.Sound g p)
    (emits : ∀ kinds, Emits g p kinds → Emits g other kinds)
    (asks : ∀ e, g.NeverExpects e → e ∉ other.demands → e ∉ p.demands) :
    start.Sound g other := by
  match start, h with
  | none, nothing => exact emits _ nothing
  | some (kind, row), ⟨expand, never⟩ =>
    exact ⟨fun kinds hrow => emits _ (expand kinds hrow),
      fun e reserved absent => never e reserved (asks e reserved absent)⟩

/-- A row begins as its first production does, and as the others do if that matches nothing. -/
theorem andThen {row : List Production} {later : Unit → List Start} {first : Start}
    (h : first.Sound g p) (mem : start ∈ first.andThen row later)
    (others : ∀ s ∈ later (), s.Sound g (.sequence row)) :
    start.Sound g (.sequence (p :: row)) := by
  have absent : ∀ e, e ∉ (Production.sequence (p :: row)).demands →
      e ∉ p.demands ∧ e ∉ (Production.sequence row).demands := by
    intro e h
    exact ⟨fun hp => h (List.mem_append_left _ hp), fun hrow => h (List.mem_append_right _ hrow)⟩
  match first, h with
  | none, nothing =>
    -- the first item matches nothing, and the row begins as the others do
    exact (others start mem).map (fun kinds hrow => .cons nothing hrow) fun e _ h => (absent e h).2
  | some (kind, rest), ⟨expand, never⟩ =>
    -- the first item begins with a demand, and what is left of it comes before the others
    obtain rfl := List.mem_singleton.mp mem
    refine ⟨?_, ?_⟩
    · intro kinds hkinds
      obtain ⟨front, back, rfl, hfront, hback⟩ := hkinds.exists_append
      exact .cons (expand front hfront) hback
    · intro e reserved h
      obtain ⟨notKind, notRest⟩ := never e reserved (absent e h).1
      refine ⟨notKind, ?_⟩
      intro hmem
      rw [Production.demands, Production.demandsOfAll_append, List.mem_append] at hmem
      exact hmem.elim notRest (absent e h).2

end Start.Sound

section Starts

variable {g : Productions} {enter : Rule → List Start}

/-- A round of a repetition begins as its body does, and rounds go on. -/
theorem sound_of_round {body other : Production} {start : Start}
    (sound : ∀ s ∈ body.starts enter, s.Sound g body)
    (mem : start ∈ (body.starts enter).flatMap (Start.andThen [.many body] fun _ => []))
    (emits : ∀ {kinds more}, Emits g body kinds → Emits g (.many body) more →
      Emits g other (kinds ++ more))
    (asks : ∀ e, e ∉ other.demands → e ∉ body.demands) : start.Sound g other := by
  obtain ⟨first, hfirst, mem⟩ := List.mem_flatMap.mp mem
  have rounds := (sound first hfirst).andThen mem (fun _ none => nomatch none)
  refine rounds.map (fun kinds h => ?_) fun e _ absent h => ?_
  · -- what was emitted is that of a round and of the further rounds
    cases h with
    | cons head others =>
      cases others with
      | cons again last =>
        cases last
        rw [List.append_nil]
        exact emits head again
  · rw [Production.demands, Production.demandsOfAll, Production.demandsOfAll,
      Production.demandsOfAll, List.append_nil, List.mem_append] at h
    exact h.elim (asks e absent) (asks e absent)

mutual

/-- The starts of a production are sound, if those of the rules that it may call are. -/
theorem sound_of_starts (called : ∀ r, ∀ s ∈ enter r, s.Sound g (g.get r)) :
    (p : Production) → ∀ s ∈ p.starts enter, s.Sound g p
  | .token kind, s, mem => by
    -- a demand begins with itself
    obtain rfl := List.mem_singleton.mp mem
    refine ⟨?_, ?_⟩
    · intro kinds h
      cases h
      exact .token
    · intro e _ absent
      have other : e ≠ kind := fun same => absent (List.mem_singleton.mpr same)
      exact ⟨other, List.not_mem_nil⟩
  | .call r arg, s, mem => (called r s mem).map (fun _ => .call) fun _ reserved _ => reserved r
  | .sequence items, s, mem => sound_of_startsOfRow called items s mem
  | .optional body, s, mem => by
    -- what is within begins, or it is passed over
    rcases List.mem_append.mp mem with mem | mem
    · exact (sound_of_starts called body s mem).map (fun _ => .enter) fun _ _ => id
    · obtain rfl := List.mem_singleton.mp mem
      exact .skip
  | .many body, s, mem => by
    -- a round begins, or the repetition is passed over
    rcases List.mem_append.mp mem with mem | mem
    · exact sound_of_round (sound_of_starts called body) mem .again fun _ => id
    · obtain rfl := List.mem_singleton.mp mem
      exact .done
  | .atLeastOne body, s, mem => sound_of_round (sound_of_starts called body) mem .once fun _ => id
  | .choice alternatives, s, mem => by
    obtain ⟨gate, p, chosen, sound⟩ := sound_of_startsOfAlternatives called alternatives s mem
    exact sound.map (fun _ => .branch chosen) fun e _ absent h =>
      absent (Production.demands_subset_of_mem chosen h)

/-- The same, for productions in a row. -/
theorem sound_of_startsOfRow (called : ∀ r, ∀ s ∈ enter r, s.Sound g (g.get r)) :
    (row : List Production) → ∀ s ∈ Production.startsOfRow enter row, s.Sound g (.sequence row)
  | [], s, mem => by
    obtain rfl := List.mem_singleton.mp mem
    exact .nil
  | p :: rest, s, mem => by
    obtain ⟨first, hfirst, mem⟩ := List.mem_flatMap.mp mem
    exact (sound_of_starts called p first hfirst).andThen mem (sound_of_startsOfRow called rest)

/-- The same, for the alternatives of a choice: each start is one of an alternative. -/
theorem sound_of_startsOfAlternatives (called : ∀ r, ∀ s ∈ enter r, s.Sound g (g.get r)) :
    (alternatives : List (Gate × Production)) →
      ∀ s ∈ Production.startsOfAlternatives enter alternatives,
        ∃ gate p, (gate, p) ∈ alternatives ∧ s.Sound g p
  | [], s, mem => nomatch mem
  | (gate, p) :: rest, s, mem => by
    rcases List.mem_append.mp mem with mem | mem
    · exact ⟨gate, p, List.mem_cons_self, sound_of_starts called p s mem⟩
    · obtain ⟨gate, q, chosen, sound⟩ := sound_of_startsOfAlternatives called rest s mem
      exact ⟨gate, q, List.mem_cons_of_mem _ chosen, sound⟩

end

end Starts

namespace Productions

variable (g : Productions)

theorem sound_startsWithin (calls : Nat) (r : Rule) :
    ∀ s ∈ g.startsWithin calls r, s.Sound g (g.get r) := by
  induction calls generalizing r with
  | zero => exact nofun
  | succ calls ih => exact sound_of_starts ih (g.get r)

theorem sound_starts (row : List Production) : ∀ s ∈ g.starts row, s.Sound g (.sequence row) :=
  sound_of_startsOfRow (g.sound_startsWithin Rule.count) row

end Productions

/-- An opening that is shorter than its depth is an expansion of its row, and no opening asks for
    what nothing asks for. -/
theorem emits_of_mem_openings {g : Productions} {k : Nat} {row : List Production} {path : Path}
    (h : path ∈ g.openings k row) :
    (path.length < k → Emits g (.sequence row) path) ∧
      ∀ e, g.NeverExpects e → e ∉ (Production.sequence row).demands → e ∉ path := by
  -- by induction on the depth: each demand of the path is that of a start
  induction k generalizing row path with
  | zero =>
    obtain rfl := List.mem_singleton.mp h
    exact ⟨fun short => absurd short (Nat.lt_irrefl 0), fun _ _ _ => nofun⟩
  | succ k ih =>
    rw [Productions.openings, mem_distinct, List.mem_flatMap] at h
    obtain ⟨start, hstart, hpath⟩ := h
    have sound := g.sound_starts row start hstart
    cases start with
    | none =>
      -- the row may end here
      obtain rfl := List.mem_singleton.mp hpath
      exact ⟨fun _ => sound, fun _ _ _ => nofun⟩
    | some start =>
      -- a demand, and a path of what is left behind it
      obtain ⟨kind, rest⟩ := start
      obtain ⟨expand, never⟩ := sound
      obtain ⟨path, hmem, rfl⟩ := List.mem_map.mp hpath
      obtain ⟨whole, absent⟩ := ih hmem
      refine ⟨?_, ?_⟩
      · intro short
        exact expand path (whole (Nat.lt_of_succ_lt_succ short))
      intro e reserved noRow
      obtain ⟨notKind, noRest⟩ := never e reserved noRow
      rw [List.mem_cons, not_or]
      exact ⟨notKind, absent e reserved noRest⟩

end GraphQL
