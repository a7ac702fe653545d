/-
  When a report can be laid out.

  Only the long form of a mistake can break off, and only for one reason: the line of the mistake is
  shown, and the mistake stands further to the right than text can be padded.  `Diagnostic.Fits` says
  that this is not so.  A report has the form of each of its mistakes in it, so it is laid out exactly
  if all of them fit (`Reading.exists_report`, `Reading.report_of_not_fits`).

  What is laid out is never empty, so a report that is laid out is empty only where there is nothing
  to report (`Reading.report_eq_empty_iff`).
-/
import GraphQL.Reading
import Mathlib.Tactic.Choose

namespace GraphQL

/-- There is only one way in which something is not laid out. -/
theorem Layout.eq_tooWide {α : Type} {l : Layout α} (none : ¬ ∃ a, l = .ok a) :
    l = .error .tooWide := by
  cases l with
  | ok a => exact absurd ⟨a, rfl⟩ none
  | error e => cases e; rfl

/-! ## One mistake -/

namespace Diagnostic

/-- A mistake whose line of a source is shown stands no further to the right than text can be
    padded. -/
def Fits (d : Diagnostic) (source : String) : Prop :=
  d.span.start.line < (shownLines source.toList).length → d.span.start.column ≤ widestPadding

instance (d : Diagnostic) (source : String) : Decidable (d.Fits source) :=
  inferInstanceAs (Decidable (_ → _))

variable {d : Diagnostic} {source text : String}

/-- A diagnostic in one line is not empty, for it has its colons. -/
theorem oneLine_ne_empty (d : Diagnostic) : d.oneLine ≠ "" := by
  intro empty
  have front := (String.append_eq_empty_iff.mp empty).1
  exact absurd (String.append_eq_empty_iff.mp front).2 (by decide)

/-- The lines of the long form: two in front of those of the source, and the note behind them. -/
theorem exists_shown_of_detailed {source : Option String} (laid : d.detailed source = .ok text) :
    ∃ shown, text = String.join
      ((["error: " ++ d.message, "  --> " ++ d.place] ++ shown ++ d.note).map (· ++ "\n")) := by
  unfold detailed at laid
  split at laid
  · rename_i line _
    cases cut : d.snippet line with
    | ok shown =>
      rw [cut] at laid
      exact ⟨shown, (Except.ok.inj laid).symm⟩
    | error e =>
      rw [cut] at laid
      cases laid
  · exact ⟨[], (Except.ok.inj laid).symm⟩

/-- A detailed diagnostic is not empty. -/
theorem detailed_ne_empty {source : Option String} (laid : d.detailed source = .ok text) :
    text ≠ "" := by
  obtain ⟨shown, rfl⟩ := exists_shown_of_detailed laid
  intro empty
  simp only [List.cons_append, List.map_cons, String.join_cons, String.append_eq_empty_iff] at empty
  exact absurd empty.1.1.1 (by decide)

/-- The long form of a mistake is laid out exactly if the mistake fits. -/
theorem exists_detailed_iff : (∃ text, d.detailed (some source) = .ok text) ↔ d.Fits source := by
  unfold detailed Fits
  rw [Option.bind_some]
  cases shown : (shownLines source.toList)[d.span.start.line]? with
  | none =>
    have below := List.getElem?_eq_none_iff.mp shown
    exact ⟨fun _ inside => absurd inside (Nat.not_lt.mpr below), fun _ => ⟨_, rfl⟩⟩
  | some line =>
    have inside := (List.getElem?_eq_some_iff.mp shown).1
    -- the padding is the only part of the snippet that can break off
    by_cases narrow : d.span.start.column ≤ widestPadding
    · refine ⟨fun _ _ => narrow, fun _ => ?_⟩
      simp only [snippet, padding_of_le narrow]
      exact ⟨_, rfl⟩
    · refine ⟨?_, fun fits => absurd (fits inside) narrow⟩
      rintro ⟨text, laid⟩
      simp only [snippet, padding_of_lt (Nat.not_le.mp narrow)] at laid
      cases laid

/-- A diagnostic is not empty in either format. -/
theorem inFormat_ne_empty {source : Option String} {format : ErrorFormat}
    (laid : d.inFormat source format = .ok text) : text ≠ "" := by
  cases format with
  | detailed => exact detailed_ne_empty laid
  | oneLine =>
    obtain rfl := Except.ok.inj laid
    exact d.oneLine_ne_empty

/-- In the short form every mistake is laid out, in the long form those that fit. -/
theorem exists_inFormat_iff {format : ErrorFormat} :
    (∃ text, d.inFormat (some source) format = .ok text)
      ↔ (format = .detailed → d.Fits source) := by
  cases format with
  | detailed => exact exists_detailed_iff.trans ⟨fun fits _ => fits, fun fits => fits rfl⟩
  | oneLine => exact ⟨fun _ => nofun, fun _ => ⟨_, rfl⟩⟩

end Diagnostic

/-! ## Reports -/

/-- Texts in a row are empty together only if there are none, unless one of them is empty. -/
theorem intercalate_eq_empty_iff {separator : String} {texts : List String}
    (nonempty : ∀ t ∈ texts, t ≠ "") : separator.intercalate texts = "" ↔ texts = [] := by
  constructor
  · intro empty
    match texts with
    | [] => rfl
    | [t] => exact absurd empty (by simpa using nonempty t List.mem_cons_self)
    | t :: u :: others =>
      rw [String.intercalate_cons_cons, String.append_eq_empty_iff,
        String.append_eq_empty_iff] at empty
      exact absurd empty.1.1 (nonempty t List.mem_cons_self)
  · rintro rfl
    exact String.intercalate_nil

section Reports

variable {format : ErrorFormat} {lexical : List LexicalError} {errors : List SyntaxError}
  {source : Option String} {text : String}

/-- A report that is laid out is made of forms that are. -/
theorem report_eq_ok_iff :
    report format lexical errors source = .ok text ↔
      ∃ shown, (errors.map fun e => e.diagnostic.inFormat source format) = shown.map .ok ∧
        text = "\n".intercalate (lexical.map (fun e => e.diagnostic.oneLine) ++ shown) := by
  simp only [← mapM_eq_ok_iff]
  unfold report
  cases errors.mapM fun e => e.diagnostic.inFormat source format with
  | error e =>
    -- some mistake cannot be laid out, and no list of texts is that of the mistakes
    constructor
    · exact nofun
    · rintro ⟨shown, laid, -⟩
      cases laid
  | ok shown =>
    -- all of them are, and their texts are put together
    constructor
    · intro laid
      exact ⟨shown, rfl, (Except.ok.inj laid).symm⟩
    · rintro ⟨shown', laid, rfl⟩
      obtain rfl := Except.ok.inj laid
      rfl

/-- A report is laid out exactly if each of its mistakes is. -/
theorem exists_report_iff :
    (∃ text, report format lexical errors source = .ok text)
      ↔ ∀ e ∈ errors, ∃ text, e.diagnostic.inFormat source format = .ok text := by
  simp only [report_eq_ok_iff]
  constructor
  · rintro ⟨-, shown, laid, -⟩ e he
    have made := List.mem_map_of_mem (f := fun e => e.diagnostic.inFormat source format) he
    rw [laid] at made
    obtain ⟨text, -, same⟩ := List.mem_map.mp made
    exact ⟨text, same.symm⟩
  · intro laid
    choose! form hform using laid
    refine ⟨_, errors.map form, ?_, rfl⟩
    rw [List.map_map]
    exact List.map_congr_left hform

/-- A report that is laid out is empty only where there is nothing to report. -/
theorem report_eq_empty_iff (laid : report format lexical errors source = .ok text) :
    text = "" ↔ lexical = [] ∧ errors = [] := by
  obtain ⟨shown, forms, rfl⟩ := report_eq_ok_iff.mp laid
  have count : shown = [] ↔ errors = [] := by
    rw [← List.length_eq_zero_iff, ← List.length_eq_zero_iff]
    have lengths := congrArg List.length forms
    rw [List.length_map, List.length_map] at lengths
    rw [lengths]
  rw [intercalate_eq_empty_iff, List.append_eq_nil_iff, List.map_eq_nil_iff, count]
  intro t ht
  rcases List.mem_append.mp ht with ht | ht
  · obtain ⟨e, -, rfl⟩ := List.mem_map.mp ht
    exact e.diagnostic.oneLine_ne_empty
  · have made := List.mem_map_of_mem (f := @Except.ok LayoutError String) ht
    rw [← forms] at made
    obtain ⟨e, -, form⟩ := List.mem_map.mp made
    exact Diagnostic.inFormat_ne_empty form

end Reports

namespace Reading

variable (r : Reading) {source : String} {format : ErrorFormat}

theorem hasErrors_eq_false_iff : r.hasErrors = false ↔ r.lexical = [] ∧ r.errors = [] := by
  unfold hasErrors
  cases r.lexical <;> cases r.errors <;> simp

theorem hasErrors_iff : r.hasErrors = true ↔ 0 < r.errorCount := by
  rw [← Bool.not_eq_false, hasErrors_eq_false_iff, errorCount, Nat.pos_iff_ne_zero, ne_eq,
    Nat.add_eq_zero_iff, List.length_eq_zero_iff, List.length_eq_zero_iff]

/-- All syntax errors of a reading can be laid out in a form. -/
def Fits (r : Reading) (source : String) (format : ErrorFormat) : Prop :=
  format = .detailed → ∀ e ∈ r.errors, e.diagnostic.Fits source

instance : Decidable (r.Fits source format) := inferInstanceAs (Decidable (_ → _))

/-- There is a report on a reading that fits. -/
theorem exists_report (fits : r.Fits source format) :
    ∃ text, r.report (some source) format = .ok text :=
  exists_report_iff.mpr fun e he => Diagnostic.exists_inFormat_iff.mpr fun long => fits long e he

/-- The report on a reading is empty exactly if there are no mistakes. -/
theorem report_eq_empty_iff {source : Option String} {text : String}
    (laid : r.report source format = .ok text) : text = "" ↔ r.hasErrors = false :=
  (GraphQL.report_eq_empty_iff laid).trans r.hasErrors_eq_false_iff.symm

/-- There is no report on a reading that does not fit. -/
theorem report_of_not_fits (wide : ¬ r.Fits source format) :
    r.report (some source) format = .error .tooWide := by
  apply Layout.eq_tooWide
  intro laid
  refine wide fun long e he => ?_
  exact Diagnostic.exists_inFormat_iff.mp (exists_report_iff.mp laid e he) long

end Reading

end GraphQL
