/-
  The rules that can match nothing.

  `nullableRules` makes as many rounds over the table as there are rules, each from what the one
  before has found.  Two facts make the result exact.  What a round finds is expanded to nothing,
  because all that it builds on is (`Production.emits_of_nullable`).  And the rounds have come to
  an end: a round that is not the last lists a rule that was not listed before, so after `n` rounds
  either nothing changes any more or `n` rules are listed (`settled_or_many`), and there are no
  more than all.  A table that no round changes lists every rule that is expanded to nothing
  (`Emits.nullable`), so it is the only one of its kind.

  The rounds may also be made in place, each rule seeing what was found for those before it, and
  repeated until a pass changes nothing.  `Passes` says that this ends, and with what.
-/
import GraphQL.Proofs.Expansion

namespace GraphQL

/-! ## What a production can match, given what is known -/

namespace Production

mutual

/-- What can match nothing still can if more is known. -/
theorem nullable_mono {known later : Rule → Bool} (grow : ∀ r, known r = true → later r = true) :
    (p : Production) → p.nullable known = true → p.nullable later = true
  | .token _, h => by cases h
  | .call rule _, h => grow rule h
  | .sequence items, h => allNullable_mono grow items h
  | .optional _, _ => rfl
  | .many _, _ => rfl
  | .atLeastOne body, h => nullable_mono grow body h
  | .choice alternatives, h => someNullable_mono grow alternatives h

/-- The same, for each of some productions. -/
theorem allNullable_mono {known later : Rule → Bool} (grow : ∀ r, known r = true → later r = true) :
    (items : List Production) → allNullable known items = true → allNullable later items = true
  | [], _ => rfl
  | p :: rest, h => by
    obtain ⟨first, others⟩ := Bool.and_eq_true_iff.mp h
    exact Bool.and_eq_true_iff.mpr ⟨nullable_mono grow p first, allNullable_mono grow rest others⟩

/-- The same, for one of some alternatives. -/
theorem someNullable_mono {known later : Rule → Bool}
    (grow : ∀ r, known r = true → later r = true) :
    (alternatives : List (Gate × Production)) →
      someNullable known alternatives = true → someNullable later alternatives = true
  | [], h => by cases h
  | (_, p) :: rest, h => by
    rcases Bool.or_eq_true_iff.mp h with first | others
    · exact Bool.or_eq_true_iff.mpr (.inl (nullable_mono grow p first))
    · exact Bool.or_eq_true_iff.mpr (.inr (someNullable_mono grow rest others))

end

mutual

/-- What can match nothing is expanded to nothing, if this is so for the rules that are known. -/
theorem emits_of_nullable {g : Productions} {known : Rule → Bool}
    (sound : ∀ r, known r = true → Emits g (g.get r) []) :
    (p : Production) → p.nullable known = true → Emits g p []
  | .token _, h => by cases h
  | .call rule _, h => .call (sound rule h)
  | .sequence items, h => emits_of_allNullable sound items h
  | .optional _, _ => .skip
  | .many _, _ => .done
  | .atLeastOne body, h => .once (emits_of_nullable sound body h) .done
  | .choice alternatives, h => by
    obtain ⟨gate, p, chosen, inside⟩ := emits_of_someNullable sound alternatives h
    exact .branch chosen inside

/-- The same, for productions in a row. -/
theorem emits_of_allNullable {g : Productions} {known : Rule → Bool}
    (sound : ∀ r, known r = true → Emits g (g.get r) []) :
    (items : List Production) → allNullable known items = true → Emits g (.sequence items) []
  | [], _ => .nil
  | p :: rest, h => by
    obtain ⟨first, others⟩ := Bool.and_eq_true_iff.mp h
    exact .cons (emits_of_nullable sound p first) (emits_of_allNullable sound rest others)

/-- The same, for one of some alternatives. -/
theorem emits_of_someNullable {g : Productions} {known : Rule → Bool}
    (sound : ∀ r, known r = true → Emits g (g.get r) []) :
    (alternatives : List (Gate × Production)) → someNullable known alternatives = true →
      ∃ gate p, (gate, p) ∈ alternatives ∧ Emits g p []
  | [], h => by cases h
  | (gate, p) :: rest, h => by
    rcases Bool.or_eq_true_iff.mp h with first | others
    · exact ⟨gate, p, List.mem_cons_self, emits_of_nullable sound p first⟩
    · obtain ⟨gate, q, chosen, inside⟩ := emits_of_someNullable sound rest others
      exact ⟨gate, q, List.mem_cons_of_mem _ chosen, inside⟩

end

end Production

/-! ## Lists of known rules -/

/-- How many rules are known. -/
def howMany (known : Rule → Bool) : Nat := (Rule.all.filter known).length

theorem howMany_le (known : Rule → Bool) : howMany known ≤ Rule.count := List.length_filter_le ..

/-- Who knows all that was known and one rule more knows more rules. -/
theorem howMany_lt {known later : Rule → Bool} (grow : ∀ r, known r = true → later r = true)
    {r : Rule} (new : later r = true) (old : known r = false) : howMany known < howMany later := by
  have among : Rule.all.filter known = (Rule.all.filter later).filter known := by
    rw [List.filter_filter]
    refine List.filter_congr fun x _ => ?_
    cases hx : known x with
    | false => rfl
    | true => rw [grow x hx]; rfl
  rw [howMany, howMany, among]
  refine List.length_filter_lt_length_iff_exists.mpr ⟨r, ?_, by simp [old]⟩
  exact List.mem_filter.mpr ⟨Rule.mem_all r, new⟩

namespace Productions

variable {g : Productions} {known : Rule → Bool}

/-- Nothing is to be added to a list of known rules: each rule that can match nothing, given the
    list, is on it. -/
def Settled (g : Productions) (known : Rule → Bool) : Prop :=
  ∀ r, (g.get r).nullable known = true → known r = true

/-- All that is listed is expanded to nothing. -/
def Sound (g : Productions) (known : Rule → Bool) : Prop :=
  ∀ r, known r = true → Emits g (g.get r) []

/-- A list that is sound and settled lists just the rules that are expanded to nothing. -/
theorem Settled.eq_true_iff (settled : g.Settled known) (sound : g.Sound known) (r : Rule) :
    known r = true ↔ Emits g (g.get r) [] := by
  constructor
  · exact sound r
  · intro h
    exact settled r (h.nullable settled rfl)

/-! ## Rounds -/

/-- What is known after some rounds. -/
def knownAfter (g : Productions) (rounds : Nat) : RuleTable Bool :=
  Nat.repeat g.nullableRound rounds (.ofFn fun _ => false)

theorem get_knownAfter_zero (g : Productions) (r : Rule) : (g.knownAfter 0).get r = false :=
  RuleTable.get_ofFn ..

theorem get_knownAfter_succ (g : Productions) (rounds : Nat) (r : Rule) :
    (g.knownAfter (rounds + 1)).get r = (g.get r).nullable (g.knownAfter rounds).get :=
  RuleTable.get_ofFn ..

/-- No round forgets what is known. -/
theorem knownAfter_grows (g : Productions) (rounds : Nat) :
    ∀ r, (g.knownAfter rounds).get r = true → (g.knownAfter (rounds + 1)).get r = true := by
  induction rounds with
  | zero =>
    intro r h
    rw [get_knownAfter_zero] at h
    cases h
  | succ rounds ih =>
    intro r h
    rw [get_knownAfter_succ] at h ⊢
    exact (g.get r).nullable_mono ih h

/-- Whatever is known after some rounds is known rightly. -/
theorem sound_knownAfter (g : Productions) (rounds : Nat) : g.Sound (g.knownAfter rounds).get := by
  induction rounds with
  | zero =>
    intro r h
    rw [get_knownAfter_zero] at h
    cases h
  | succ rounds ih =>
    intro r h
    rw [get_knownAfter_succ] at h
    exact (g.get r).emits_of_nullable ih h

/-- Once nothing is to be added the next round adds nothing. -/
theorem Settled.succ {rounds : Nat} (settled : g.Settled (g.knownAfter rounds).get) :
    g.Settled (g.knownAfter (rounds + 1)).get := by
  have same : (g.knownAfter (rounds + 1)).get = (g.knownAfter rounds).get := by
    funext r
    rw [Bool.eq_iff_iff]
    constructor
    · intro h
      rw [get_knownAfter_succ] at h
      exact settled r h
    · exact g.knownAfter_grows rounds r
  rw [same]
  exact settled

/-- Each round that changes something lists one rule more. -/
theorem settled_or_many (g : Productions) (rounds : Nat) :
    g.Settled (g.knownAfter rounds).get ∨ rounds ≤ howMany (g.knownAfter rounds).get := by
  induction rounds with
  | zero => exact .inr (Nat.zero_le _)
  | succ rounds ih =>
    by_cases settled : g.Settled (g.knownAfter rounds).get
    · exact .inl settled.succ
    · right
      have many : rounds ≤ howMany (g.knownAfter rounds).get := ih.resolve_left settled
      simp only [Settled, not_forall] at settled
      obtain ⟨r, new, old⟩ := settled
      rw [← get_knownAfter_succ] at new
      have more := howMany_lt (g.knownAfter_grows rounds) new (by simpa using old)
      omega

/-- As many rounds as there are rules are enough. -/
theorem settled_nullableRules (g : Productions) : g.Settled g.nullableRules.get := by
  rcases g.settled_or_many Rule.count with settled | many
  · exact settled
  · -- all rules are listed
    intro r _
    have all : Rule.all.filter (g.knownAfter Rule.count).get = Rule.all :=
      List.filter_sublist.eq_of_length_le many
    exact (List.mem_filter.mp (all.symm ▸ Rule.mem_all r)).2

theorem sound_nullableRules (g : Productions) : g.Sound g.nullableRules.get :=
  g.sound_knownAfter Rule.count

/-- The rules that are found to match nothing are those that are expanded to nothing. -/
theorem nullableRules_iff (g : Productions) (r : Rule) :
    g.nullableRules.get r = true ↔ Emits g (g.get r) [] :=
  g.settled_nullableRules.eq_true_iff g.sound_nullableRules r

/-! ## Passes in place -/

/-- Lists a rule if it can match nothing, given what is known. -/
def learn (g : Productions) (known : Rule → Bool) (r : Rule) : Rule → Bool :=
  if (g.get r).nullable known then Function.update known r true else known

/-- One pass over the rules in place: each sees what was found for those before it. -/
def pass (g : Productions) (known : Rule → Bool) : Rule → Bool := Rule.all.foldl g.learn known

/-- Passes are made until one of them changes nothing. -/
inductive Passes (g : Productions) : (Rule → Bool) → (Rule → Bool) → Prop where
  | stop {known : Rule → Bool} (same : g.pass known = known) : Passes g known known
  | again {known result : Rule → Bool} (changed : g.pass known ≠ known)
      (others : Passes g (g.pass known) result) : Passes g known result

/-- Looking at a rule takes back nothing that was known. -/
theorem learn_grows (known : Rule → Bool) (r : Rule) :
    ∀ x, known x = true → g.learn known r x = true := by
  intro x h
  unfold learn
  split
  · by_cases here : x = r
    · rw [here, Function.update_self]
    · rw [Function.update_of_ne here, h]
  · exact h

/-- Nor does looking at many. -/
theorem foldl_learn_grows (rules : List Rule) (known : Rule → Bool) :
    ∀ x, known x = true → rules.foldl g.learn known x = true := by
  induction rules generalizing known with
  | nil => exact fun _ => id
  | cons r rules ih => exact fun x h => ih (g.learn known r) x (learn_grows known r x h)

/-- A rule is learned to be nullable only if its production is, by what is known rightly. -/
theorem Sound.learn (sound : g.Sound known) (r : Rule) : g.Sound (g.learn known r) := by
  intro x h
  unfold Productions.learn at h
  split at h
  · rename_i nothing
    by_cases here : x = r
    · rw [here]
      exact (g.get r).emits_of_nullable sound nothing
    · rw [Function.update_of_ne here] at h
      exact sound x h
  · exact sound x h

theorem Sound.foldl_learn (sound : g.Sound known) (rules : List Rule) :
    g.Sound (rules.foldl g.learn known) := by
  induction rules generalizing known with
  | nil => exact sound
  | cons r rules ih => exact ih (sound.learn r)

/-- A pass that changes nothing has found none of its rules wanting. -/
theorem listed_of_foldl_learn_eq {rules : List Rule} (same : rules.foldl g.learn known = known) :
    ∀ r ∈ rules, (g.get r).nullable known = true → known r = true := by
  induction rules with
  | nil => exact nofun
  | cons r rules ih =>
    -- what the first rule adds stays to the end, so it has added nothing
    have first : g.learn known r = known := by
      funext x
      rw [Bool.eq_iff_iff]
      constructor
      · intro h
        rw [← same]
        exact foldl_learn_grows rules _ x h
      · exact learn_grows known r x
    intro x mem nothing
    rcases List.mem_cons.mp mem with rfl | mem
    · rw [learn, if_pos nothing] at first
      rw [← first, Function.update_self]
    · rw [List.foldl_cons, first] at same
      exact ih same x mem nothing

theorem settled_of_pass_eq (same : g.pass known = known) : g.Settled known :=
  fun r => listed_of_foldl_learn_eq same r (Rule.mem_all r)

/-- A pass that changes something lists one rule more. -/
theorem howMany_lt_pass (changed : g.pass known ≠ known) :
    howMany known < howMany (g.pass known) := by
  have grow : ∀ r, known r = true → g.pass known r = true := foldl_learn_grows Rule.all known
  obtain ⟨r, other⟩ := Function.ne_iff.mp changed
  cases old : known r with
  | true => exact absurd (by rw [old, grow r old]) other
  | false =>
    rw [old] at other
    exact howMany_lt grow (by simpa using other) old

/-- From whatever is known soundly the passes end, with the rules that are expanded to nothing.
    Each pass that is not the last leaves fewer rules to be listed. -/
theorem Sound.passes {known : Rule → Bool} (sound : g.Sound known) :
    g.Passes known g.nullableRules.get := by
  by_cases same : g.pass known = known
  · have result : g.nullableRules.get = known := by
      funext r
      rw [Bool.eq_iff_iff, nullableRules_iff]
      exact ((settled_of_pass_eq same).eq_true_iff sound r).symm
    rw [result]
    exact .stop same
  · have more := howMany_lt_pass same
    have bound := howMany_le (g.pass known)
    have later : g.Sound (g.pass known) := sound.foldl_learn Rule.all
    exact .again same later.passes
termination_by Rule.count - howMany known

end Productions

end GraphQL
