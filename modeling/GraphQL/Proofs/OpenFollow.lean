/-
  Rules that end where they stand alone.

  A follow table says what may come after a rule in a document.  A rule that is read by itself is
  followed by the end of the input, so for such readings the end is added to the table at every
  rule; and the rules with which an executable definition ends close with a brace, so that whatever
  comes after them may come.

  With what is added the table is still settled: no choice inside a rule needs to know that the
  input does not end there.
-/
import GraphQL.Proofs.StandardFollow

namespace GraphQL

/-! ## More that may follow -/

/-- A follow table with more that may follow each rule, whatever the rule has used. -/
def FollowTable.extend (f : FollowTable) (more : Rule → List TokenKind) : FollowTable where
  all r := more r ++ f.all r
  given r used := more r ++ f.given r used

/-- A sound table stays sound if it says that more may follow. -/
theorem FollowTable.Sound.extend {f : FollowTable}
    {allowed : Rule → List Part → List Token → Prop} (sound : f.Sound allowed)
    (more : Rule → List TokenKind) : (f.extend more).Sound allowed where
  given_subset r used := List.append_subset.mpr
    ⟨List.subset_append_left .., List.Subset.trans (sound.given_subset r used)
      (List.subset_append_right ..)⟩
  mono r used used' grow := List.append_subset.mpr
    ⟨List.subset_append_left .., List.Subset.trans (sound.mono r grow)
      (List.subset_append_right ..)⟩
  atEnd r used h := by
    rcases List.mem_append.mp h with h | h
    · exact List.mem_append_left _ h
    · exact List.mem_append_right _ (sound.atEnd r used h)
  narrow r parts t rest fits := by
    rintro ⟨kind, hkind, met⟩
    -- what was added follows whatever the rule used
    rcases List.mem_append.mp hkind with added | old
    · exact ⟨kind, List.mem_append_left _ added, met⟩
    · obtain ⟨kind, hkind, met⟩ := sound.narrow r fits ⟨kind, old, met⟩
      exact ⟨kind, List.mem_append_right _ hkind, met⟩

namespace Standard

/-- What may follow a rule besides what follows it in documents: the end, and anything behind the
    last brace of an executable definition. -/
def standingAlone : Rule → List TokenKind
  | .executableDefinition | .operationDefinition | .fragmentDefinition | .selectionSet =>
    TokenKind.all
  | _ => [.endOfInput]

/-- The follow table of rules that may stand alone. -/
def openTable : FollowTable := followTable.extend standingAlone

theorem endOfInput_mem_openTable (r : Rule) : .endOfInput ∈ openTable.all r := by
  refine List.mem_append_left _ ?_
  cases r <;> first | exact List.mem_singleton_self _ | exact TokenKind.mem_all _

set_option maxRecDepth 100000 in
/-- With this table, too, every choice of the standard productions is the right one. -/
theorem settled_openTable (r : Rule) :
    productions.settled openTable r [] [] (productions.get r) = true := by
  have all : ∀ r ∈ Rule.all,
      productions.settled openTable r [] [] (productions.get r) = true := by
    decide +kernel
  exact all r (Rule.mem_all r)

/-- Readings of rules that stand alone are predictive. -/
theorem predictive_openTable :
    Predictive grammar openTable NoDangling productions.nullableRules.get rank where
  made := predictive.made
  ranked := ranked
  settled := settled_openTable
  sound := followTable_sound.extend standingAlone

end Standard

end GraphQL
