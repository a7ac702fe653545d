/-
  The tools agree on what is wrong with a file.

  There are four ways to a verdict on a file: its tree is printed, or the document that the tree
  stands for, or no tree is made, or the file is checked among others.  The first three are runs for
  an output, and what they report is known (`FoundFile.outcome_of_report`).  A check adds up what it
  finds file by file.  One file adds at the end of each list and to each count (`Tally.add_eq`), so
  what many files come to is known at once (`checkAll_eq`).

  A report that cannot be laid out is where the tools part.  It breaks off the runs for an output, so
  these have no outcome; in a check it breaks off one task, and the check goes on and ends as if the
  file could not be read.
-/
import GraphQL.Proofs.FileReports
import GraphQL.Proofs.Snippets

namespace GraphQL

/-! ## Many files -/

namespace Tally

variable (format : ErrorFormat) (tasks : Nat → Nat)

/-- What the task for one file adds to a check. -/
theorem add_eq (t : Tally) (f : FoundFile) (task : Nat) :
    t.add f.path task (f.check Standard.grammar format) =
      { summary :=
          { t.summary with
            errors := t.summary.errors + f.counted format
            faultyFiles := t.summary.faultyFiles + if 0 < f.counted format then 1 else 0
            unread := t.summary.unread ++ (f.unread? format task).toList }
        reports := t.reports ++ (f.report? format).toList } := by
  cases read : f.text with
  | error error =>
    -- the file cannot be read
    have checked : f.check Standard.grammar format = .ok (.error error) := by
      rw [FoundFile.check, read]
      rfl
    have ended : f.outcome .nothing format = .ok (.failure (unreadableText f.path error)) := by
      rw [FoundFile.outcome, read]
      rfl
    simp [add, addUnread, checked, FoundFile.counted, FoundFile.errorCount, FoundFile.unread?,
      FoundFile.report?, read, ended]
  | ok source =>
    by_cases fits : f.Fits format
    · -- all its errors can be laid out
      obtain ⟨report, laid⟩ := Reading.exists_report _ ((FoundFile.fits_iff read).mp fits)
      rw [f.check_of_report read laid, f.counted_of_report read laid, f.report?_of_report read laid,
        f.unread?_of_report read laid]
      by_cases mistakes : 0 < f.errorCount
      · simp [add, mistakes]
      · simp [add, Nat.eq_zero_of_not_pos mistakes]
    · -- the task breaks off
      have broken := f.outcome_of_not_fits read fits .nothing
      rw [f.check_of_not_fits read fits, f.unread?_of_not_fits read fits]
      simp [add, addUnread, FoundFile.counted, FoundFile.report?, read, broken]

/-- What some files add to a check, one after the other; there were `n` files before them. -/
theorem foldl_add_eq (files : List FoundFile) (n : Nat) (t : Tally) :
    (files.zipIdx n).foldl
        (fun t (f, n) => t.add f.path (tasks n) (f.check Standard.grammar format)) t =
      { summary :=
          { t.summary with
            errors := t.summary.errors + (files.map (FoundFile.counted format)).sum
            faultyFiles := t.summary.faultyFiles + files.countP fun f => 0 < f.counted format
            unread := t.summary.unread
              ++ (files.zipIdx n).filterMap fun (f, n) => f.unread? format (tasks n) }
        reports := t.reports ++ files.filterMap (FoundFile.report? format) } := by
  -- at most one line is listed for each file
  have listed : ∀ {α : Type} {p : α → Option String} {a : α} {as : List α},
      (a :: as).filterMap p = (p a).toList ++ as.filterMap p := by
    intro α p a as
    rw [List.filterMap_cons]
    cases p a <;> rfl
  induction files generalizing n t with
  | nil => simp
  | cons f files ih =>
    rw [List.zipIdx_cons, List.foldl_cons]
    dsimp only
    rw [add_eq, ih, listed, listed, List.map_cons, List.sum_cons, List.countP_cons]
    simp only [List.append_assoc, Nat.add_assoc, decide_eq_true_eq, Nat.add_comm (files.countP _)]

end Tally

/-- What a check of files comes to. -/
theorem checkAll_eq (format : ErrorFormat) (tasks : Nat → Nat) (finds : Finds) :
    checkAll Standard.grammar format tasks finds =
      { summary :=
          { files := finds.files.length
            skipped := finds.skipped
            faultyFiles := finds.files.countP fun f => 0 < f.counted format
            errors := (finds.files.map (FoundFile.counted format)).sum
            unread := (finds.closed.map fun p => closedText p.1 p.2)
              ++ finds.files.zipIdx.filterMap fun (f, n) => f.unread? format (tasks n) }
        reports := finds.files.filterMap (FoundFile.report? format) } := by
  rw [checkAll, Tally.foldl_add_eq]
  simp only [Tally.ofFinds, Nat.zero_add, List.nil_append]

namespace Tally

theorem outcome_status (t : Tally) : t.outcome.status = t.summary.status := by
  unfold outcome
  split
  · rename_i clean
    exact clean.symm
  · rfl

/-- A check that is not clean prints the reports and then the summary. -/
theorem outcome_stderr {t : Tally} (notClean : t.summary.status ≠ .clean) :
    t.outcome.stderr = some ("\n".intercalate (t.reports ++ [t.summary.text])) := by
  unfold outcome
  split
  · rename_i clean
    exact absurd clean notClean
  · rfl

end Tally

/-- Whether something is there that cannot be looked into. -/
inductive Entry.Blocked : Entry → Prop where
  | closed (error : DiskError) : Blocked (.closed error)
  | inside {entries : List (String × Entry)} {name : String} {entry : Entry}
      (mem : (name, entry) ∈ entries) (further : Blocked entry) : Blocked (.directory entries)

namespace Entry

theorem walkEach_eq (path : String) (entries : List (String × Entry)) :
    walkEach path entries = entries.flatMap fun e => walk (joinPath path e.1) e.2 := by
  induction entries with
  | nil => rw [walkEach, List.flatMap_nil]
  | cons e entries ih => rw [walkEach, ih, List.flatMap_cons]

/-- Everything that a path leads to is listed, so also each place that cannot be looked into. -/
theorem blocked_iff (path : String) (entry : Entry) :
    entry.Blocked ↔ ∃ p ∈ entry.walk path, (p.2.closed?).isSome = true := by
  match entry with
  | .file text =>
    constructor
    · exact nofun
    · rintro ⟨p, hp, shut⟩
      rw [walk, List.mem_singleton] at hp
      subst hp
      cases shut
  | .closed error =>
    -- a place that is not open blocks, and is the only one on the walk
    refine ⟨fun _ => ⟨(path, .closed error), ?_, rfl⟩, fun _ => .closed error⟩
    rw [walk]
    exact List.mem_singleton_self _
  | .directory entries =>
    rw [walk, walkEach_eq]
    constructor
    · -- what blocks the directory is below one of its entries
      intro blocked
      cases blocked with
      | @inside _ name entry mem further =>
        obtain ⟨p, hp, shut⟩ := (blocked_iff (joinPath path name) entry).mp further
        exact ⟨p, List.mem_flatMap.mpr ⟨_, mem, hp⟩, shut⟩
    · -- what is found on the walk was found on the walk of one of the entries
      rintro ⟨p, hp, shut⟩
      obtain ⟨⟨name, entry⟩, mem, hp⟩ := List.mem_flatMap.mp hp
      exact .inside mem ((blocked_iff (joinPath path name) entry).mpr ⟨p, hp, shut⟩)
termination_by sizeOf entry
decreasing_by
  all_goals
    have inside := List.sizeOf_lt_of_mem mem
    simp only [Prod.mk.sizeOf_spec] at inside
    simp only [directory.sizeOf_spec]
    omega

end Entry

namespace Finds

/-- Nothing is closed to a walk if and only if none of the paths is blocked. -/
theorem closed_ofPaths (disk : Disk) (extensions paths : List String) :
    (ofPaths disk extensions paths).closed = [] ↔ ∀ path ∈ paths, ¬ (disk path).Blocked := by
  -- whether the finds are one file or many, what is closed is on the walk
  have same : (ofPaths disk extensions paths).closed
      = (ofPlaces extensions (paths.flatMap fun path => (disk path).walk path)).closed := by
    dsimp only [ofPaths]
    split
    · split <;> rfl
    · rfl
  rw [same, ofPlaces, List.filterMap_eq_nil_iff]
  constructor
  · intro opened path hpath blocked
    obtain ⟨p, hp, shut⟩ := (Entry.blocked_iff path _).mp blocked
    have none := opened p (List.mem_flatMap.mpr ⟨path, hpath, hp⟩)
    rw [Option.map_eq_none_iff] at none
    rw [none] at shut
    cases shut
  · intro opened p hp
    obtain ⟨path, hpath, hp⟩ := List.mem_flatMap.mp hp
    rw [Option.map_eq_none_iff, ← Option.not_isSome_iff_eq_none]
    exact fun shut => opened path hpath ((Entry.blocked_iff path _).mpr ⟨p, hp, shut⟩)

/-- One path that leads to a file is meant as it stands. -/
theorem ofPaths_file {disk : Disk} {path source : String} (file : disk path = .file (.ok source))
    (extensions : List String) :
    ofPaths disk extensions [path] = { files := [⟨path, .ok source⟩] } := by
  have walked : ([path].flatMap fun path => (disk path).walk path)
      = [(path, .file (.ok source))] := by
    rw [List.flatMap_singleton, file, Entry.walk]
  cases wanted : isWanted extensions (path, .file (.ok source)) <;>
    simp [ofPaths, ofPlaces, walked, file, wanted, Entry.closed?, Entry.text]

end Finds

/-! ## The command line -/

/-- A check ends badly if something could not be read, and else as its mistakes say. -/
theorem Summary.status_eq (s : Summary) :
    s.status = if s.unread = [] then .ofCount s.errors else .failure := by
  unfold status
  cases s.unread <;> rfl

/-- Numbers put beside elements change nothing about what is true of each element. -/
theorem forall_mem_zipIdx_iff {α : Type} {as : List α} {n : Nat} {P : α → Prop} :
    (∀ p ∈ as.zipIdx n, P p.1) ↔ ∀ a ∈ as, P a := by
  have same := List.forall_mem_map (f := Prod.fst) (l := as.zipIdx n) (P := P)
  rw [List.zipIdx_map_fst] at same
  exact same.symm

namespace Command

/-- Nothing kept a check from reading what it found, if all paths can be looked into, all files that
    were found be read, and all their mistakes be laid out. -/
theorem unread_eq_nil_iff (disk : Disk) (format : ErrorFormat) (tasks : Nat → Nat)
    (extensions paths : List String) :
    (checkAll Standard.grammar format tasks (.ofPaths disk extensions paths)).summary.unread = [] ↔
      (∀ path ∈ paths, ¬ (disk path).Blocked) ∧
        ∀ f ∈ (Finds.ofPaths disk extensions paths).files,
          (∃ source, f.text = .ok source) ∧ f.Fits format := by
  rw [checkAll_eq, List.append_eq_nil_iff, List.map_eq_nil_iff, Finds.closed_ofPaths,
    List.filterMap_eq_nil_iff]
  refine and_congr_right fun _ => ?_
  -- what a task complains of does not depend on its number
  simp only [FoundFile.unread?_eq_none_iff]
  exact forall_mem_zipIdx_iff
    (P := fun f : FoundFile => (∃ source, f.text = .ok source) ∧ f.Fits format)

variable {disk : Disk} {format : ErrorFormat} {tasks : Nat → Nat}

theorem run_eq (command : Command) :
    command.run disk format tasks = command.runWith Standard.grammar disk format tasks := by
  rw [run, Standard.grammar?_eq]

/-- A parse of a file that can be read is a parse of its text. -/
theorem run_parse {path source : String} (file : disk path = .file (.ok source))
    (output : TreeOutput) (rule : Rule) :
    (parse output rule path).run disk format tasks
      = Outcome.ofSource Standard.grammar output rule format path source := by
  rw [run_eq, runWith, Outcome.withText, file]
  rfl

/-- A check never breaks off. -/
theorem run_check (extensions paths : List String) :
    (check extensions paths).run disk format tasks
      = .ok (checkAll Standard.grammar format tasks (.ofPaths disk extensions paths)).outcome :=
  run_eq _

/-! ### One file -/

/-- A check of one path that leads to a file is a check of that file alone. -/
theorem checkAll_file (format : ErrorFormat) (tasks : Nat → Nat) {f : FoundFile} {source : String}
    (read : f.text = .ok source) (file : disk f.path = .file (.ok source))
    (extensions : List String) :
    checkAll Standard.grammar format tasks (.ofPaths disk extensions [f.path]) =
      { summary :=
          { files := 1
            faultyFiles := if 0 < f.counted format then 1 else 0
            errors := f.counted format
            unread := (f.unread? format (tasks 0)).toList }
        reports := (f.report? format).toList } := by
  have found : Finds.ofPaths disk extensions [f.path] = { files := [f] } := by
    rw [Finds.ofPaths_file file, ← read]
  rw [found, checkAll_eq]
  cases reported : f.report? format <;> cases unread : f.unread? format (tasks 0) <;>
    simp [reported, unread]

section File

variable {path source : String} (file : disk path = .file (.ok source))
  (extensions : List String) (output : TreeOutput)
include file

/-- A file that can be read is checked by itself as it is parsed, if the parse does not break
    off. -/
theorem run_check_of_ok {outcome : Outcome}
    (parsed : (parse output .document path).run disk format tasks = .ok outcome) :
    let errors := (Standard.grammar.readSource source (some path)).errorCount
    let summary : Summary := { files := 1, faultyFiles := 1, errors }
    ∃ checked, (check extensions [path]).run disk format tasks = .ok checked ∧
      checked.status = outcome.status ∧
      (checked.status = .diagnostics → ∃ text, outcome.stderr = some text ∧
        checked.stderr = some (text ++ "\n" ++ summary.text)) := by
  intro errors summary
  let f : FoundFile := ⟨path, .ok source⟩
  have read : f.text = .ok source := rfl
  rw [run_parse file] at parsed
  have ended : f.outcome output format = .ok outcome := (f.outcome_of_ok output read).trans parsed
  -- the command gave an outcome, so the errors fit into the lines
  have fits : f.Fits format := by
    by_contra wide
    rw [f.outcome_of_not_fits read wide] at ended
    cases ended
  obtain ⟨report, laid⟩ := Reading.exists_report _ ((f.fits_iff read).mp fits)
  obtain ⟨outcome', same, status, stderr⟩ := f.outcome_of_report read laid output
  obtain rfl := Except.ok.inj (ended.symm.trans same)
  have counted : f.errorCount = errors := f.errorCount_of_ok read
  -- the check of the one file adds its errors to nothing
  have tally := checkAll_file format tasks read file extensions
  rw [f.counted_of_report read laid, f.unread?_of_report read laid, f.report?_of_report read laid,
    counted] at tally
  have checked : (checkAll Standard.grammar format tasks
      (.ofPaths disk extensions [path])).summary.status = .ofCount errors := by
    rw [tally, Summary.status_eq]
    exact if_pos rfl
  refine ⟨_, run_check extensions [path], ?_, ?_⟩
  · -- both statuses are that of the number of errors
    rw [Tally.outcome_status, checked, status, counted]
  · -- with errors, the report is followed by the summary
    intro bad
    rw [Tally.outcome_status, checked] at bad
    have faulty : 0 < errors := by
      by_contra none
      rw [Status.ofCount, if_neg none] at bad
      cases bad
    have notClean : (checkAll Standard.grammar format tasks
        (.ofPaths disk extensions [path])).summary.status ≠ .clean := by
      rw [checked, bad]
      decide
    refine ⟨report, by rw [stderr, counted, if_pos faulty], ?_⟩
    rw [Tally.outcome_stderr notClean, tally, if_pos faulty, if_pos faulty, Option.toList_some,
      List.singleton_append, String.intercalate_cons_cons, String.intercalate_singleton]
    rfl

/-- If a parse of a file breaks off, so does the task of a check of it, and the check is a failure
    that names the task. -/
theorem run_check_of_error {error : LayoutError}
    (parsed : (parse output .document path).run disk format tasks = .error error) :
    let summary : Summary := { files := 1, unread := [brokenOffText path (tasks 0) error] }
    (check extensions [path]).run disk format tasks
      = .ok { status := .failure, stderr := some summary.text } := by
  intro summary
  let f : FoundFile := ⟨path, .ok source⟩
  have read : f.text = .ok source := rfl
  rw [run_parse file] at parsed
  have broken : f.outcome output format = .error error := (f.outcome_of_ok output read).trans parsed
  -- the command broke off, so the errors do not fit into the lines
  have wide : ¬ f.Fits format := by
    intro fits
    obtain ⟨report, laid⟩ := Reading.exists_report _ ((f.fits_iff read).mp fits)
    obtain ⟨outcome, same, -⟩ := f.outcome_of_report read laid output
    rw [same] at broken
    cases broken
  obtain rfl := Except.error.inj ((f.outcome_of_not_fits read wide output).symm.trans broken)
  have tally := checkAll_file format tasks read file extensions
  -- nothing is counted, but the path is listed as unread
  have uncounted := f.outcome_of_not_fits read wide .nothing
  rw [run_check, tally, FoundFile.counted, FoundFile.report?, read, uncounted,
    f.unread?_of_not_fits read wide]
  rfl

end File

/-! ### Many files -/

/-- A check ends badly in which something cannot be read or reported on. -/
theorem run_check_failure {extensions paths : List String}
    (unreadable : (∃ path ∈ paths, (disk path).Blocked) ∨
      ∃ f ∈ (Finds.ofPaths disk extensions paths).files,
        (∃ error, f.text = .error error) ∨ ¬ f.Fits format) :
    (checkAll Standard.grammar format tasks (.ofPaths disk extensions paths)).outcome.status
      = .failure := by
  rw [Tally.outcome_status, Summary.status_eq]
  apply if_neg
  intro none
  obtain ⟨opened, read⟩ := (unread_eq_nil_iff disk format tasks extensions paths).mp none
  rcases unreadable with ⟨path, hpath, blocked⟩ | ⟨f, hf, failed⟩
  · exact opened path hpath blocked
  · obtain ⟨⟨source, found⟩, fits⟩ := read f hf
    rcases failed with ⟨error, failed⟩ | wide
    · rw [failed] at found
      cases found
    · exact wide fits

/-- Any other check ends as the worst of its files does. -/
theorem run_check_worst {extensions paths : List String} (output : TreeOutput)
    (opened : ∀ path ∈ paths, ¬ (disk path).Blocked)
    (read : ∀ f ∈ (Finds.ofPaths disk extensions paths).files,
      (∃ source, f.text = .ok source) ∧ f.Fits format) :
    (checkAll Standard.grammar format tasks (.ofPaths disk extensions paths)).outcome.status
      = .worst ((Finds.ofPaths disk extensions paths).files.map (FoundFile.status output format)) := by
  have none := (unread_eq_nil_iff disk format tasks extensions paths).mpr ⟨opened, read⟩
  have each : ∀ f ∈ (Finds.ofPaths disk extensions paths).files,
      f.status output format = .ofCount (f.counted format) := by
    intro f hf
    obtain ⟨⟨source, found⟩, fits⟩ := read f hf
    obtain ⟨report, laid⟩ := Reading.exists_report _ ((f.fits_iff found).mp fits)
    obtain ⟨outcome, same, status, -⟩ := f.outcome_of_report found laid output
    rw [FoundFile.status, same, f.counted_of_report found laid, ← status]
  rw [Tally.outcome_status, Summary.status_eq, if_pos none, checkAll_eq, ← Status.worst_ofCount,
    List.map_map]
  exact congrArg Status.worst (List.map_congr_left each).symm

end Command

/-- The tools agree on a file that can be read, and a check of many files on what it finds in each
    of them, as far as there are reports.  If the mistakes in a file can be laid out, all outputs
    end with the status of the mistakes and with the one report on them, and so does a check of the
    file. If they cannot, all outputs break off, and a check of the file is a failure.  A check of
    many files is a failure if something cannot be read or reported on, and else ends as the worst
    of its files does; it adds up the mistakes that are reported, and the reports stand in the order
    of the files. -/
theorem verdicts_agree (disk : Disk) (format : ErrorFormat) (tasks : Nat → Nat) :
    (∀ path source, disk path = .file (.ok source) →
      (∀ output rule,
        let reading := Standard.grammar.readSource source (some path) rule
        let parsed := (Command.parse output rule path).run disk format tasks
        (reading.Fits source format → ∃ report outcome,
          reading.report (some source) format = .ok report ∧ parsed = .ok outcome ∧
          outcome.status = (if reading.hasErrors then .diagnostics else .clean) ∧
          outcome.stderr = (if reading.hasErrors then some report else none)) ∧
        (¬ reading.Fits source format → parsed = .error .tooWide)) ∧
      ∀ output extensions,
        let errors := (Standard.grammar.readSource source (some path)).errorCount
        let summary : Summary := { files := 1, faultyFiles := 1, errors }
        let parsed := (Command.parse output .document path).run disk format tasks
        ∃ checked, (Command.check extensions [path]).run disk format tasks = .ok checked ∧
          (∀ outcome, parsed = .ok outcome → checked.status = outcome.status ∧
            (checked.status = .diagnostics → ∃ text, outcome.stderr = some text ∧
              checked.stderr = some (text ++ "\n" ++ summary.text))) ∧
          (∀ error, parsed = .error error → checked.status = .failure)) ∧
    ∀ extensions paths,
      let finds := Finds.ofPaths disk extensions paths
      let summary := (checkAll Standard.grammar format tasks finds).summary
      ∃ checked, (Command.check extensions paths).run disk format tasks = .ok checked ∧
        ((∃ path ∈ paths, (disk path).Blocked) ∨
            (∃ f ∈ finds.files, (∃ error, f.text = .error error) ∨ ¬ f.Fits format) →
          checked.status = .failure) ∧
        ((∀ path ∈ paths, ¬ (disk path).Blocked) →
          (∀ f ∈ finds.files, (∃ source, f.text = .ok source) ∧ f.Fits format) → ∀ output,
            checked.status = .worst (finds.files.map (FoundFile.status output format))) ∧
        summary.errors = (finds.files.map (FoundFile.counted format)).sum ∧
        (checked.status ≠ .clean → checked.stderr = some ("\n".intercalate
          (finds.files.filterMap (FoundFile.report? format) ++ [summary.text]))) := by
  refine ⟨?_, ?_⟩
  · -- one file at a time
    intro path source file
    refine ⟨?_, ?_⟩
    · -- the command that reads it
      intro output rule reading parsed
      have same : parsed = Outcome.ofSource Standard.grammar output rule format path source :=
        Command.run_parse file output rule
      rw [same]
      refine ⟨fun fits => ?_, Outcome.ofSource_of_not_fits⟩
      obtain ⟨report, laid⟩ := reading.exists_report fits
      obtain ⟨outcome, ended, status, stderr⟩ := Outcome.ofSource_of_report output laid
      exact ⟨report, outcome, laid, ended, status.trans reading.ofCount_errorCount,
        stderr.trans (reading.ite_errorCount ..)⟩
    · -- the check of the one file, beside the command that reads it
      intro output extensions errors summary parsed
      cases ended : parsed with
      | ok outcome =>
        obtain ⟨checked, run, agree⟩ := Command.run_check_of_ok file extensions output ended
        refine ⟨checked, run, fun outcome' same => ?_, nofun⟩
        obtain rfl := Except.ok.inj same
        exact agree
      | error error =>
        exact ⟨_, Command.run_check_of_error file extensions output ended, nofun, fun _ _ => rfl⟩
  · -- any number of files
    intro extensions paths finds summary
    refine ⟨_, Command.run_check extensions paths, Command.run_check_failure,
      fun opened read output => Command.run_check_worst output opened read, ?_, ?_⟩
    · exact congrArg (fun t : Tally => t.summary.errors) (checkAll_eq format tasks finds)
    · intro status
      rw [Tally.outcome_status] at status
      rw [Tally.outcome_stderr status]
      have reports := congrArg Tally.reports (checkAll_eq format tasks finds)
      rw [reports]

/-- A disk with a file that is in order and one that is not. -/
def smallDisk : Disk := fun path =>
  if path = "good.gql" then .file (.ok "\x7ba\x7d")
  else if path = "bad.gql" then .file (.ok "\x7b")
  else .closed .notFound

/-- The second file ends both tools with its mistakes, and so it does a check of both files; a path
    that leads nowhere weighs more. -/
theorem verdicts_agree_small :
    (∃ outcome, (Command.parse .json .document "bad.gql").run smallDisk .detailed (· + 1)
        = .ok outcome ∧ outcome.status = .diagnostics) ∧
      (∃ checked, (Command.check ["gql"] ["bad.gql"]).run smallDisk .detailed (· + 1)
        = .ok checked ∧ checked.status = .diagnostics) ∧
      (∃ checked, (Command.check ["gql"] ["good.gql", "bad.gql"]).run smallDisk .detailed (· + 1)
        = .ok checked ∧ checked.status = .diagnostics) ∧
      ∃ checked, (Command.check ["gql"] ["good.gql", "none.gql"]).run smallDisk .detailed (· + 1)
        = .ok checked ∧ checked.status = .failure := by
  obtain ⟨single, many⟩ := verdicts_agree smallDisk .detailed (· + 1)
  have good : smallDisk "good.gql" = .file (.ok "\x7ba\x7d") := rfl
  have bad : smallDisk "bad.gql" = .file (.ok "\x7b") := rfl
  have nowhere : smallDisk "none.gql" = .closed .notFound := rfl
  obtain ⟨faulty, badFits⟩ :
      (Standard.grammar.readSource "\x7b" (some "bad.gql")).hasErrors = true ∧
        (Standard.grammar.readSource "\x7b" (some "bad.gql")).Fits "\x7b" .detailed := by
    decide +kernel
  have goodFits : (Standard.grammar.readSource "\x7ba\x7d" (some "good.gql")).Fits
      "\x7ba\x7d" .detailed := by decide +kernel
  obtain ⟨parsed, checked⟩ := single "bad.gql" "\x7b" bad
  obtain ⟨report, outcome, -, ended, status, -⟩ := (parsed .json .document).1 badFits
  have diagnostics : outcome.status = .diagnostics := status.trans (if_pos faulty)
  obtain ⟨one, oneRun, agree, -⟩ := checked .json ["gql"]
  obtain ⟨both, bothRun, -, worst, -⟩ := many ["gql"] ["good.gql", "bad.gql"]
  obtain ⟨astray, astrayRun, failure, -⟩ := many ["gql"] ["good.gql", "none.gql"]
  refine ⟨⟨outcome, ended, diagnostics⟩, ⟨one, oneRun, ?_⟩, ⟨both, bothRun, ?_⟩,
    ⟨astray, astrayRun, failure (.inl ⟨"none.gql", by simp, ?_⟩)⟩⟩
  · exact (agree outcome ended).1.trans diagnostics
  · have found : (Finds.ofPaths smallDisk ["gql"] ["good.gql", "bad.gql"]).files
        = [⟨"good.gql", .ok "\x7ba\x7d"⟩, ⟨"bad.gql", .ok "\x7b"⟩] := by
      have first : Finds.isWanted ["gql"] ("good.gql", .file (.ok "\x7ba\x7d")) = true := by
        decide +kernel
      have second : Finds.isWanted ["gql"] ("bad.gql", .file (.ok "\x7b")) = true := by
        decide +kernel
      simp [Finds.ofPaths, Finds.ofPlaces, good, bad, Entry.walk, Entry.text, first, second]
    have opened : ∀ path ∈ ["good.gql", "bad.gql"], ¬ (smallDisk path).Blocked := by
      intro path hpath blocked
      rcases List.mem_pair.mp hpath with rfl | rfl
      · rw [good] at blocked
        cases blocked
      · rw [bad] at blocked
        cases blocked
    have read : ∀ f ∈ (Finds.ofPaths smallDisk ["gql"] ["good.gql", "bad.gql"]).files,
        (∃ source, f.text = .ok source) ∧ f.Fits .detailed := by
      rw [found]
      intro f hf
      rcases List.mem_pair.mp hf with rfl | rfl
      · exact ⟨⟨_, rfl⟩, (FoundFile.fits_iff rfl).mpr goodFits⟩
      · exact ⟨⟨_, rfl⟩, (FoundFile.fits_iff rfl).mpr badFits⟩
    rw [worst opened read .nothing, found]
    decide +kernel
  · rw [nowhere]
    exact .closed .notFound

/-- A disk with a file whose mistake stands too far to the right. -/
def farDisk : Disk := fun path =>
  if path = "far.gql" then .file (.ok (bracedLine 65536)) else .closed .notFound

/-- The text can be read, and there is a mistake in it, but none of the runs ends with a report:
    they break off, and a check of the file is a failure. -/
theorem far_mistake_breaks_off :
    (Standard.grammar.readSource (bracedLine 65536) (some "far.gql")).hasErrors = true ∧
      (Command.parse .tree .document "far.gql").run farDisk .detailed (· + 1)
        = .error .tooWide ∧
      ∃ checked, (Command.check ["gql"] ["far.gql"]).run farDisk .detailed (· + 1) = .ok checked ∧
        checked.status = .failure := by
  have file : farDisk "far.gql" = .file (.ok (bracedLine 65536)) := rfl
  obtain ⟨faulty, wide⟩ := not_fits_bracedLine (Nat.le_refl widestPadding) (some "far.gql")
  have broken : (Command.parse .tree .document "far.gql").run farDisk .detailed (· + 1)
      = .error .tooWide := by
    rw [Command.run_parse file]
    exact Outcome.ofSource_of_not_fits wide
  exact ⟨Reading.hasErrors_iff _ |>.mpr faulty, broken, _,
    Command.run_check_of_error file ["gql"] .tree broken, rfl⟩

end GraphQL
