/-
  The program: reads the files that are named on the command line, runs the command, and prints the
  outcome.  Everything that is decided is decided elsewhere.

  Every path is read as a file.  A directory is one of the places that cannot be looked into here.
-/
import GraphQL.Command.LogLevel
import GraphQL.Command.Run
import GraphQL.Command.Usage

namespace GraphQL

/-- The paths on which a command works. -/
def Command.paths : Command → List String
  | .check _ paths => paths
  | .parse _ _ path => [path]
  | .tokenize path => [path]

/-- Why the system gives no text. -/
def DiskError.ofSystem : IO.Error → DiskError
  | .noFileOrDirectory _ _ _ => .notFound
  | .inappropriateType _ code _ => if code = 21 then .isDirectory else .notDirectory
  | error => .other error.toString

/-- Reads what stands at a path. -/
def Entry.read (path : String) : IO Entry := do
  match ← (IO.FS.readBinFile path).toBaseIO with
  | .ok bytes => return .ofBytes bytes
  | .error error => return .closed (.ofSystem error)

/-- Reads what stands at some paths. -/
def Disk.read (paths : List String) : IO Disk := do
  let places ← paths.mapM fun path => return (path, ← Entry.read path)
  return fun path => (places.lookup path).getD (.closed .notFound)

/-- Prints an outcome, and gives its exit code. -/
def Outcome.print (o : Outcome) : IO UInt32 := do
  if let some text := o.stdout then IO.println text
  if let some text := o.stderr then IO.eprintln text
  return o.status.code.toUInt32

/-- The exit code of a run that breaks off. -/
def brokenOffCode : UInt32 := 101

/-- Carries out an invocation. -/
def Invocation.perform (i : Invocation) : IO UInt32 := do
  let choice := LogChoice.of i.verbosity (← IO.getEnv "LOG_LEVEL")
  if let some text := choice.invalid then
    IO.eprintln ("Invalid LOG_LEVEL environment variable value: " ++ text)
  match i.run (← Disk.read i.command.paths) with
  | .ok outcome => outcome.print
  | .error error =>
    IO.eprintln error.message
    return brokenOffCode

end GraphQL

/-- Carries out a command line. -/
def main (arguments : List String) : IO UInt32 := do
  match GraphQL.Invocation.ofArguments arguments with
  | .ok i => i.perform
  | .error e => e.outcome.print
