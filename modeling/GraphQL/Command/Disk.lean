/-
  What the command line finds on a disk.

  An `Entry` is what stands at one place: a file with its text, a directory with the entries in it,
  or a place that cannot be looked into, with the cause.  A `Disk` tells for each path what stands
  there, so a tool is a function of the disk and no tool reads one itself.

  `Entry.disk` is the disk of the paths that start from one directory.  A path is a row of names
  between slashes; it is followed one name at a time, so of two mistakes in a path the one that
  stands further left is found.  `Entry.walk` lists what a path leads to: the place itself if it is
  no directory, and else everything below it, in the order of the directory.
-/
import GraphQL.Source

namespace GraphQL

/-! ## Entries -/

/-- Why there is no text at a place. -/
inductive DiskError where
  | notFound
  /-- A path goes on behind a file. -/
  | notDirectory
  | isDirectory
  | nameTooLong
  /-- A name holds the character zero, which ends a name. -/
  | badName
  /-- The bytes are not UTF-8. -/
  | notText
  | other (message : String)
deriving DecidableEq, Repr

/-- The wording of an error. -/
def DiskError.message : DiskError → String
  | .notFound => "No such file or directory (os error 2)"
  | .notDirectory => "Not a directory (os error 20)"
  | .isDirectory => "Is a directory (os error 21)"
  | .nameTooLong => "File name too long (os error 36)"
  | .badName => "file name contained an unexpected NUL byte"
  | .notText => "stream did not contain valid UTF-8"
  | .other message => message

/-- What stands at a place. -/
inductive Entry where
  /-- A file, with its text or with the cause why it gives none. -/
  | file (text : Except DiskError String)
  | directory (entries : List (String × Entry))
  /-- A place that cannot be looked into. -/
  | closed (error : DiskError)
deriving Inhabited

/-- What stands at the places that paths lead to. -/
abbrev Disk := String → Entry

namespace Entry

/-- The file that holds some bytes. -/
def ofBytes (bytes : ByteArray) : Entry :=
  match String.fromUTF8? bytes with
  | some text => .file (.ok text)
  | none => .file (.error .notText)

/-- The text at a place. -/
def text : Entry → Except DiskError String
  | .file text => text
  | .directory _ => .error .isDirectory
  | .closed error => .error error

/-- Whether a file stands there. -/
def isFile : Entry → Bool
  | .file _ => true
  | _ => false

/-- The cause why a place cannot be looked into. -/
def closed? : Entry → Option DiskError
  | .closed error => some error
  | _ => none

/-- The entries of a directory. -/
def entries : Entry → List (String × Entry)
  | .directory entries => entries
  | _ => []

/-! ## Directories by the paths of their files -/

/-- Puts an entry to a place below another one; directories on the way are made. -/
def put (new : Entry) : List String → Entry → Entry
  | [], here =>
    match new, here with
    | .directory [], .directory entries => .directory entries
    | _, _ => new
  | name :: rest, here =>
    match here.entries.lookup name with
    | some inner =>
      let inner := put new rest inner
      .directory (here.entries.map fun e => if e.1 = name then (name, inner) else e)
    | none => .directory (here.entries ++ [(name, put new rest (.directory []))])

/-- The directory in which some paths lead to some entries. -/
def ofPaths (paths : List (String × Entry)) : Entry :=
  paths.foldl (fun here p => put p.2 (p.1.splitOn "/") here) (.directory [])

/-! ## Paths -/

/-- How many bytes a name may have. -/
def maxNameSize : Nat := 255

/-- How many bytes a path may have. -/
def maxPathSize : Nat := 4095

/-- What some names lead to from a place; `above` holds the directories around it, innermost first.
    Of what lies outside the outermost one nothing is known, so there it is empty. -/
def follow (above : List Entry) (here : Entry) : List String → Entry
  | [] => here
  | name :: rest =>
    match here with
    | .closed error => .closed error
    | .file _ => .closed .notDirectory
    | .directory entries =>
      if name = "" ∨ name = "." then follow above here rest
      else if name = ".." then
        match above with
        | up :: above => follow above up rest
        | [] => follow [] (.directory []) rest
      else if name.utf8ByteSize > maxNameSize then .closed .nameTooLong
      else
        match entries.lookup name with
        | some inner => follow (here :: above) inner rest
        | none => .closed .notFound

/-- The disk of the paths that start from a directory.  No other paths are known. -/
def disk (root : Entry) : Disk := fun path =>
  if path.toList.contains '\x00' then .closed .badName
  else if path.utf8ByteSize > maxPathSize then .closed .nameTooLong
  else
    match path.toList with
    | [] => .closed .notFound
    | '/' :: _ => .closed .notFound
    | _ => follow [] root (path.splitOn "/")

/-- The path of a name in the directory of a path. -/
def joinPath (path name : String) : String :=
  if path.toList.getLast? = some '/' then path ++ name else path ++ "/" ++ name

mutual

/-- Everything that a path leads to and that is no directory, each with its path. -/
def walk (path : String) : Entry → List (String × Entry)
  | .file text => [(path, .file text)]
  | .closed error => [(path, .closed error)]
  | .directory entries => walkEach path entries

/-- Everything that is in a directory, or below it, and that is no directory. -/
def walkEach (path : String) : List (String × Entry) → List (String × Entry)
  | [] => []
  | (name, entry) :: rest => walk (joinPath path name) entry ++ walkEach path rest

end

end Entry

/-! ## Names of files -/

/-- The extension in a file's path: what stands behind the last point of the name, unless all that
    stands in front of it is empty. -/
def extension? (path : String) : Option String :=
  let reversed := path.toList.reverse.takeWhile (· != '/')
  match reversed.span (· != '.') with
  | (behind, _ :: _ :: _) => some (String.ofList behind.reverse)
  | _ => none

/-! ## Examples -/

example : extension? "d.e/a.b.gql" = some "gql" := by cbv
example : extension? "d/.gql" = none := by cbv
example : extension? "d.e/a" = none := by cbv
example : extension? "a." = some "" := by cbv

end GraphQL
