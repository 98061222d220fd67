import EightBit.Cli.Run

/-!
# The program

Connects the command line with the files and streams of the system.
-/

namespace EightBit

namespace Main

/-- The code of the system for a path through something that is no directory, with either sign. -/
def notDirectoryCodes : List UInt32 := [20, 0 - 20]

/-- Why an operation of the system failed. -/
def fileError : IO.Error → FileError
  | .noFileOrDirectory .. => .missing
  | .inappropriateType _ code _ =>
    if notDirectoryCodes.contains code then .notDirectory else .isDirectory
  | .permissionDenied .. => .other "permission denied"
  | .invalidArgument .. => .invalidName
  | e => .other (toString e)

/-- The bytes of a text. -/
def bytes (t : Text) : ByteArray := ⟨t.toArray⟩

/-- A path as the system takes it. -/
def pathString? (path : Text) : Option String := String.fromUTF8? (bytes path)

/-- What the system finds under a path. -/
def look (path : Text) : IO Found := do
  match pathString? path with
  | none => return .failed .missing
  | some name =>
    try
      return .file (← IO.FS.readBinFile name).toList
    catch e =>
      match fileError e with
      | .isDirectory => return .directory
      | e => return .failed e

/-- Writes a file. -/
def write (path content : Text) : IO (Option FileError) := do
  match pathString? path with
  | none => return some .missing
  | some name =>
    try
      IO.FS.writeBinFile name (bytes content)
      return none
    catch e => return some (fileError e)

/-- Shows an outcome and gives its exit code. -/
def finish (e : Exit) : IO UInt32 := do
  (← IO.getStderr).write (bytes e.stderr)
  (← IO.getStdout).write (bytes e.stdout)
  return e.code.toUInt32

/-- Runs a program until it stops, and tells about it meanwhile. -/
partial def settle (p : Progress) : IO Progress := do
  let (told, p) := p.flush
  (← IO.getStderr).write (bytes told)
  match p with
  | .running .. => settle (p.advance 1000)
  | p => return p

/-- Does what the arguments say, where some paths have been looked at already. -/
partial def serve (arguments : List Text) (known : List (Text × Found)) : IO UInt32 := do
  let disk : Disk := ⟨fun path => (known.lookup path).getD .unknown, known.length⟩
  match ← settle (Cli.start disk arguments) with
  | .reading path => serve arguments ((path, ← look path) :: known)
  | .writing path content outcome =>
    match ← write path content with
    | none => finish outcome
    | some e => finish (outcome.unwritten path e)
  | .finished outcome => finish outcome
  | .running .. => return 1

end Main

end EightBit

def main (arguments : List String) : IO UInt32 :=
  EightBit.Main.serve (arguments.map EightBit.Text.ofString) []
