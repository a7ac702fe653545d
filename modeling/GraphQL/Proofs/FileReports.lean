/-
  What is reported on one file.

  A file is read for an output: its tree is printed, or the document that the tree stands for, or
  nothing.  The crux is that the report is that of one reading (`Outcome.ofSource_of_report`).
  Whether a tree is made changes no mistake (`Grammar.parse_recognize`).  What is to be printed can be
  made, whatever the tree is (`TreeOutput.print_succeeds`).  And only where there is nothing to report
  the report is empty (`Reading.report_eq_empty_iff`), so the status that is read off it is the right
  one (`Outcome.report_eq`).

  A report that cannot be laid out breaks a run for an output off, whatever the output is
  (`Outcome.ofSource_of_not_fits`), and it breaks the task off that checks the file
  (`FoundFile.check_of_not_fits`).
-/
import GraphQL.Command.Run
import GraphQL.Proofs.BuildingDocument
import GraphQL.Proofs.Layouts
import GraphQL.Proofs.Lockstep
import Mathlib.Algebra.GroupWithZero.Nat

namespace GraphQL

/-! ## Statuses -/

namespace Status

/-- The one of two statuses that weighs more. -/
def worse (s t : Status) : Status := if s.code < t.code then t else s

/-- The status that weighs most; without any, all is in order. -/
def worst (statuses : List Status) : Status := statuses.foldr worse .clean

/-- The status of some number of mistakes. -/
def ofCount (errors : Nat) : Status := if 0 < errors then .diagnostics else .clean

/-- The worse of two results is that of the errors of both. -/
theorem worse_ofCount (m n : Nat) : (ofCount m).worse (ofCount n) = ofCount (m + n) := by
  cases m with
  | zero =>
    rw [Nat.zero_add]
    cases n <;> rfl
  | succ m =>
    have sum : ofCount (m + 1 + n) = .diagnostics := if_pos (by omega)
    rw [sum]
    cases n <;> rfl

/-- The worst of the statuses of some counts is the status of their sum. -/
theorem worst_ofCount (counts : List Nat) : worst (counts.map ofCount) = ofCount counts.sum := by
  induction counts with
  | nil => rfl
  | cons n counts ih =>
    show (ofCount n).worse (worst (counts.map ofCount)) = ofCount (n + counts.sum)
    rw [ih, worse_ofCount]

end Status

/-! ## Readings -/

namespace Reading

variable (r : Reading)

theorem ofCount_errorCount :
    Status.ofCount r.errorCount = if r.hasErrors then .diagnostics else .clean := by
  simp only [r.hasErrors_iff]
  rfl

theorem ite_errorCount {α : Type} (a b : α) :
    (if 0 < r.errorCount then a else b) = if r.hasErrors then a else b := by
  simp only [r.hasErrors_iff]

end Reading

/-- Checking alone gives what reading gives, without the tree. -/
theorem Grammar.readSource_recognize (g : Grammar) (source : String) (file : Option String)
    (entry : Rule) :
    g.readSource source file entry .recognize
      = { g.readSource source file entry with tree := none } := by
  unfold readSource readScan
  rw [g.parse_recognize]

/-- What is to be printed of a tree that conforms can be made. -/
theorem TreeOutput.print_succeeds (output : TreeOutput) {rule : Rule} {tree : Node}
    (reads : Reads rule tree) : Succeeds (output.print tree) := by
  cases output with
  | tree | nothing => exact .pure _
  | json =>
    refine .map _ ?_
    unfold Node.documentJson
    split
    · rename_i document
      have same : rule = .document := reads.rule.symm.trans document
      subst same
      exact .map _ (Document.ofTree_succeeds reads)
    · exact .map _ (Construct.ofNode_succeeds reads)

theorem Standard.exists_tree (source : String) (file : Option String) (rule : Rule) :
    ∃ tree, (grammar.readSource source file rule).tree = some tree ∧ Reads rule tree := by
  obtain ⟨tree, found, same, conforms⟩ :=
    exists_conforming_tree finish_eq rule (Scan.ofSource source file).tokens
  exact ⟨tree, (tree_readSource ..).trans found, same, conforms⟩

namespace Outcome

/-- The status that is read off the report on a reading is that of its mistakes. -/
theorem report_eq {reading : Reading} {source : Option String} {format : ErrorFormat}
    (printed : Option String) {text : String} (laid : reading.report source format = .ok text) :
    report printed text
      = { status := .ofCount reading.errorCount
          stdout := printed
          stderr := if 0 < reading.errorCount then some text else none } := by
  have empty : text.isEmpty = true ↔ ¬ 0 < reading.errorCount := by
    rw [String.isEmpty_iff, reading.report_eq_empty_iff laid, ← reading.hasErrors_iff,
      Bool.not_eq_true]
  by_cases mistakes : 0 < reading.errorCount
  · rw [report, if_neg (mt empty.mp (not_not_intro mistakes)), Status.ofCount, if_pos mistakes,
      if_pos mistakes]
  · rw [report, if_pos (empty.mpr mistakes), Status.ofCount, if_neg mistakes, if_neg mistakes]

section Runs

variable {g : Grammar} {output : TreeOutput} {rule : Rule} {format : ErrorFormat}
  {path source : String}

/-- The run for an output reads the mistakes that a run for a tree reads. -/
theorem report_mode (g : Grammar) (output : TreeOutput) (rule : Rule) (format : ErrorFormat)
    (path source : String) :
    (g.readSource source (some path) rule output.mode).report (some source) format
      = (g.readSource source (some path) rule).report (some source) format := by
  cases output with
  | nothing =>
    rw [TreeOutput.mode, g.readSource_recognize]
    rfl
  | tree | json => rfl

/-- If what is to be printed can be made, a run ends with it and with the report, and it breaks off
    where there is no report. -/
theorem ofSource_eq_map {printed : Option String}
    (made : (g.readSource source (some path) rule output.mode).tree.mapM output.print
      = .ok printed) :
    ofSource g output rule format path source
      = ((g.readSource source (some path) rule).report (some source) format).map
          (report printed) := by
  rw [← report_mode g output]
  simp only [ofSource, made]
  cases (g.readSource source (some path) rule output.mode).report (some source) format <;> rfl

/-- What is to be printed of no tree is nothing, and else it is made of the tree. -/
theorem exists_printed_of_tree {tree : Node} {text : String}
    (found : (g.readSource source (some path) rule).tree = some tree)
    (made : output.print tree = .ok text) :
    ∃ printed, (g.readSource source (some path) rule output.mode).tree.mapM output.print
      = .ok printed := by
  cases output with
  | nothing =>
    rw [TreeOutput.mode, g.readSource_recognize]
    exact ⟨none, rfl⟩
  | tree | json =>
    simp only [TreeOutput.mode, found, Option.mapM_some, made]
    exact ⟨some text, rfl⟩

end Runs

variable {output : TreeOutput} {rule : Rule} {format : ErrorFormat} {path source : String}

/-- What is to be printed of a text can be made. -/
theorem exists_printed (output : TreeOutput) (rule : Rule) (path source : String) :
    ∃ printed, (Standard.grammar.readSource source (some path) rule output.mode).tree.mapM
      output.print = .ok printed := by
  obtain ⟨tree, found, reads⟩ := Standard.exists_tree source (some path) rule
  obtain ⟨text, made⟩ := output.print_succeeds reads
  exact exists_printed_of_tree found made

/-- Whatever is printed of a text, the status and the report are those of reading it. -/
theorem ofSource_of_report (output : TreeOutput) {text : String}
    (laid : (Standard.grammar.readSource source (some path) rule).report (some source) format
      = .ok text) :
    let reading := Standard.grammar.readSource source (some path) rule
    ∃ outcome, ofSource Standard.grammar output rule format path source = .ok outcome ∧
      outcome.status = .ofCount reading.errorCount ∧
      outcome.stderr = if 0 < reading.errorCount then some text else none := by
  obtain ⟨printed, made⟩ := exists_printed output rule path source
  refine ⟨report printed text, ?_, ?_, ?_⟩
  · rw [ofSource_eq_map made, laid]
    rfl
  · rw [report_eq printed laid]
  · rw [report_eq printed laid]

/-- Whatever is to be printed of a text, without a report the run breaks off. -/
theorem ofSource_of_not_fits
    (wide : ¬ (Standard.grammar.readSource source (some path) rule).Fits source format) :
    ofSource Standard.grammar output rule format path source = .error .tooWide := by
  obtain ⟨printed, made⟩ := exists_printed output rule path source
  rw [ofSource_eq_map made, Reading.report_of_not_fits _ wide]
  rfl

end Outcome

/-! ## Files -/

namespace FoundFile

/-- How reading a file for an output ends. -/
def outcome (output : TreeOutput) (format : ErrorFormat) (f : FoundFile) : Layout Outcome :=
  match f.text with
  | .ok source => Outcome.ofSource Standard.grammar output .document format f.path source
  | .error error => return .failure (unreadableText f.path error)

/-- The status with which that ends; breaking off weighs as much as a failure. -/
def status (output : TreeOutput) (format : ErrorFormat) (f : FoundFile) : Status :=
  match f.outcome output format with
  | .ok outcome => outcome.status
  | .error _ => .failure

/-- The mistakes in a file, if it can be read, can be laid out in a form. -/
def Fits (format : ErrorFormat) (f : FoundFile) : Prop :=
  ∀ source, f.text = .ok source →
    (Standard.grammar.readSource source (some f.path)).Fits source format

/-- How many mistakes there are in a file. -/
def errorCount (f : FoundFile) : Nat :=
  match f.text with
  | .ok source => (Standard.grammar.readSource source (some f.path)).errorCount
  | .error _ => 0

/-- How many mistakes in a file are counted: none if there is no report on them. -/
def counted (format : ErrorFormat) (f : FoundFile) : Nat :=
  match f.outcome .nothing format with
  | .ok _ => f.errorCount
  | .error _ => 0

/-- The report on a file, if there is one and there are mistakes in it. -/
def report? (format : ErrorFormat) (f : FoundFile) : Option String :=
  match f.text, f.outcome .nothing format with
  | .ok _, .ok outcome => outcome.stderr
  | _, _ => none

/-- Why a file cannot be read or reported on by its task, if it cannot. -/
def unread? (format : ErrorFormat) (task : Nat) (f : FoundFile) : Option String :=
  match f.text, f.outcome .nothing format with
  | .error error, _ => some (unreadableText f.path error)
  | .ok _, .ok _ => none
  | .ok _, .error error => some (brokenOffText f.path task error)

variable {format : ErrorFormat} {f : FoundFile} {source report : String}

theorem errorCount_of_ok (read : f.text = .ok source) :
    f.errorCount = (Standard.grammar.readSource source (some f.path)).errorCount := by
  rw [errorCount, read]

theorem outcome_of_ok (output : TreeOutput) (read : f.text = .ok source) : f.outcome output format
    = Outcome.ofSource Standard.grammar output .document format f.path source := by
  rw [outcome, read]

/-- A file fits a format if the reading of its text does. -/
theorem fits_iff (read : f.text = .ok source) :
    f.Fits format ↔ (Standard.grammar.readSource source (some f.path)).Fits source format := by
  constructor
  · exact fun fits => fits source read
  · intro fits source' read'
    obtain rfl := Except.ok.inj (read.symm.trans read')
    exact fits

/-- A task reads a file without a tree, which changes neither the mistakes nor the report. -/
theorem check_of_ok (g : Grammar) (read : f.text = .ok source) :
    f.check g format
      = ((g.readSource source (some f.path)).report (some source) format).map
          fun text => .ok ⟨(g.readSource source (some f.path)).errorCount, text⟩ := by
  rw [check, read]
  dsimp only [reading]
  rw [g.readSource_recognize]
  rfl

/-! ### A file whose mistakes are laid out -/

section Laid

variable (read : f.text = .ok source)
  (laid : (Standard.grammar.readSource source (some f.path)).report (some source) format
    = .ok report)
include read laid

/-- A file ends with its mistakes, and the report on them is printed if there are any. -/
theorem outcome_of_report (output : TreeOutput) : ∃ outcome, f.outcome output format = .ok outcome ∧
    outcome.status = .ofCount f.errorCount ∧
    outcome.stderr = if 0 < f.errorCount then some report else none := by
  rw [outcome_of_ok output read, errorCount_of_ok read]
  exact Outcome.ofSource_of_report output laid

theorem counted_of_report : f.counted format = f.errorCount := by
  obtain ⟨outcome, same, -⟩ := outcome_of_report read laid .nothing
  rw [counted, same]

/-- A check prints the report of a file if something is wrong with it. -/
theorem report?_of_report :
    f.report? format = if 0 < f.errorCount then some report else none := by
  obtain ⟨outcome, same, -, printed⟩ := outcome_of_report read laid .nothing
  rw [report?, read, same, ← printed]

theorem unread?_of_report (task : Nat) : f.unread? format task = none := by
  obtain ⟨outcome, same, -⟩ := outcome_of_report read laid .nothing
  rw [unread?, read, same]

/-- The task for a file reports what a run without a tree does. -/
theorem check_of_report :
    f.check Standard.grammar format = .ok (.ok ⟨f.errorCount, report⟩) := by
  rw [check_of_ok Standard.grammar read, laid, errorCount_of_ok read]
  rfl

end Laid

/-! ### A file whose mistakes are not -/

section Broken

variable (read : f.text = .ok source) (wide : ¬ f.Fits format)
include read wide

theorem outcome_of_not_fits (output : TreeOutput) : f.outcome output format = .error .tooWide := by
  rw [fits_iff read] at wide
  rw [outcome_of_ok output read, Outcome.ofSource_of_not_fits wide]

theorem unread?_of_not_fits (task : Nat) :
    f.unread? format task = some (brokenOffText f.path task .tooWide) := by
  rw [unread?, read, outcome_of_not_fits read wide .nothing]

/-- The task for a file breaks off as a run without a tree does. -/
theorem check_of_not_fits : f.check Standard.grammar format = .error .tooWide := by
  have broken := Reading.report_of_not_fits _ (mt (fits_iff read).mpr wide)
  rw [check_of_ok Standard.grammar read, broken]
  rfl

end Broken

/-- The task for a file has nothing to complain of exactly if the file can be read and its mistakes
    be laid out. -/
theorem unread?_eq_none_iff {task : Nat} :
    f.unread? format task = none ↔ (∃ source, f.text = .ok source) ∧ f.Fits format := by
  cases read : f.text with
  | error error => simp [unread?, read]
  | ok source =>
    by_cases fits : f.Fits format
    · obtain ⟨report, laid⟩ := Reading.exists_report _ ((fits_iff read).mp fits)
      simp [unread?_of_report read laid, fits]
    · simp [unread?_of_not_fits read fits, fits]

end FoundFile

end GraphQL
