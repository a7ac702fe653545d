/-
  Checking many files.

  `Finds.ofPaths` looks for the files under some paths: those with one of some extensions are to be
  checked, the others are passed over, and places that cannot be looked into are noted.  One path
  that leads to a file is meant as it stands, so then the extension does not matter.

  `checkAll` reads each file that was found, builds no trees, and adds up what it finds.  The
  reports of the files with mistakes stand in the order of the files, the summary behind them.

  Each file is checked by a task of its own.  A task that breaks off because its report cannot be
  laid out takes no other with it: its file counts among those that could not be read, under the
  number of the task.  Which numbers the tasks bear is up to the system that runs them.
-/
import GraphQL.Command.Disk
import GraphQL.Command.Summary
import GraphQL.Reading

namespace GraphQL

/-! ## Finding files -/

/-- A file that was found. -/
structure FoundFile where
  path : String
  text : Except DiskError String

/-- What was found under some paths. -/
structure Finds where
  files : List FoundFile := []
  skipped : Nat := 0
  /-- The places that cannot be looked into. -/
  closed : List (String × DiskError) := []

namespace Finds

/-- Whether a file with one of some extensions stands at a place.  The extensions may be given with
    the point in front. -/
def isWanted (extensions : List String) (place : String × Entry) : Bool :=
  place.2.isFile &&
    match extension? place.1 with
    | some e => extensions.any fun wanted => wanted.toList.dropWhile (· == '.') == e.toList
    | none => false

/-- Sorts what paths lead to. -/
def ofPlaces (extensions : List String) (places : List (String × Entry)) : Finds :=
  { files := (places.filter (isWanted extensions)).map fun p => ⟨p.1, p.2.text⟩
    skipped := places.countP fun p => p.2.isFile && !isWanted extensions p
    closed := places.filterMap fun p => p.2.closed?.map fun error => (p.1, error) }

/-- What is found under some paths. -/
def ofPaths (disk : Disk) (extensions : List String) (paths : List String) : Finds :=
  let finds := ofPlaces extensions (paths.flatMap fun path => (disk path).walk path)
  match finds.files, paths with
  | [], [path] =>
    match disk path with
    | .file text => { finds with files := [⟨path, text⟩], skipped := 0 }
    | _ => finds
  | _, _ => finds

end Finds

/-! ## Checking files -/

/-- The wording for a text that cannot be read. -/
def unreadableText (path : String) (error : DiskError) : String :=
  s!"failed to read {path}: {error.message}"

/-- The wording for a place that cannot be looked into. -/
def closedText (path : String) (error : DiskError) : String :=
  s!"IO error for operation on {path}: {error.message}"

/-- The wording for a file whose task broke off. -/
def brokenOffText (path : String) (task : Nat) (error : LayoutError) : String :=
  s!"failed to check {path}: task {task} panicked with message \"{error.message}\""

/-- What a task reports on the file that it checks. -/
structure FileReport where
  /-- The number of mistakes. -/
  errors : Nat
  text : String
deriving DecidableEq, Repr

/-- Reads the text of a file without building a tree. -/
def FoundFile.reading (g : Grammar) (f : FoundFile) (text : String) : Reading :=
  g.readSource text (some f.path) .document .recognize

/-- What the task for a file gives; it may break off. -/
def FoundFile.check (g : Grammar) (format : ErrorFormat) (f : FoundFile) :
    Layout (Except DiskError FileReport) :=
  match f.text with
  | .error error => return .error error
  | .ok text => do
    let reading := f.reading g text
    return .ok { errors := reading.errorCount, text := ← reading.report (some text) format }

/-- What a check has come to so far: the counts, and the reports of the files with mistakes. -/
structure Tally where
  summary : Summary
  reports : List String := []

namespace Tally

/-- Before the first file is read. -/
def ofFinds (finds : Finds) : Tally :=
  { summary :=
      { files := finds.files.length
        skipped := finds.skipped
        unread := finds.closed.map fun p => closedText p.1 p.2 } }

/-- Adds what could not be read. -/
def addUnread (t : Tally) (text : String) : Tally :=
  { t with summary := { t.summary with unread := t.summary.unread ++ [text] } }

/-- Adds what the task for a file gives. -/
def add (t : Tally) (path : String) (task : Nat) : Layout (Except DiskError FileReport) → Tally
  | .ok (.ok report) =>
    if 0 < report.errors then
      { summary :=
          { t.summary with
            errors := t.summary.errors + report.errors
            faultyFiles := t.summary.faultyFiles + 1 }
        reports := t.reports ++ [report.text] }
    else t
  | .ok (.error error) => t.addUnread (unreadableText path error)
  | .error error => t.addUnread (brokenOffText path task error)

/-- How the check ends. -/
def outcome (t : Tally) : Outcome :=
  match t.summary.status with
  | .clean => { status := .clean, stdout := some t.summary.text }
  | status =>
    { status, stderr := some ("\n".intercalate (t.reports ++ [t.summary.text])) }

end Tally

/-- Checks all files that were found; `tasks n` is the number of the task for the file with `n`
    files before it. -/
def checkAll (g : Grammar) (format : ErrorFormat) (tasks : Nat → Nat) (finds : Finds) : Tally :=
  finds.files.zipIdx.foldl (fun t (f, n) => t.add f.path (tasks n) (f.check g format))
    (.ofFinds finds)

end GraphQL
