import EightBit.Text.Basic

/-!
# Paths

Names of files: parts separated by slashes. All operations work on the text alone.

* `Path.clean`: the shortest name of the same file.
* `Path.join`: a name relative to a directory.
* `Path.dir`: the directory of a file.
-/

namespace EightBit

namespace Path

/-- The byte between the parts of a path. -/
def slash : UInt8 := 0x2F

/-- Whether a path starts at the root. -/
def isAbsolute (path : Text) : Bool := path.head? == some slash

/-- The parts between the slashes. -/
def parts (path : Text) : List Text := path.split slash

/-- The part that stands for the directory itself. -/
def here : Text := "."

/-- The part that stands for the directory above. -/
def above : Text := ".."

/-- The parts so far, the last one first, with one more part. The directory above takes back a part,
unless there is none to take back. -/
def push (absolute : Bool) (found : List Text) (part : Text) : List Text :=
  if part.isEmpty || part == here then found
  else if part == above then
    match found with
    | [] => if absolute then [] else [above]
    | last :: rest => if last == above then above :: found else rest
  else part :: found

/-- The shortest path that names the same file, if no part is a link. -/
def clean (path : Text) : Text :=
  let found := (parts path).foldl (push (isAbsolute path)) []
  let joined := Text.joinWith [slash] found.reverse
  if isAbsolute path then slash :: joined else if joined.isEmpty then here else joined

/-- A path relative to a directory. -/
def join (dir path : Text) : Text := clean (dir ++ slash :: path)

/-- The directory of a path. -/
def dir (path : Text) : Text := clean ((path.reverse.dropWhile (· != slash)).reverse)

end Path

end EightBit
