import EightBit.Path

/-!
# Files

What the command line reads and writes. A disk answers what is found under a path; it may not know yet,
and then the answer has to be found out first.

* `Disk`: what is found under each path.
* `FileTree`: a directory with its files, held in memory.
-/

namespace EightBit

/-- Why a file cannot be read or written. -/
inductive FileError
  | missing
  | notDirectory
  | isDirectory
  | invalidName
  /-- Another reason, known by its text. -/
  | other (reason : Text)
deriving DecidableEq, Repr

/-- The text of an error. -/
def FileError.message : FileError → Text
  | missing => "no such file or directory"
  | notDirectory => "not a directory"
  | isDirectory => "is a directory"
  | invalidName => "invalid argument"
  | other reason => reason

/-- What is found under a path. -/
inductive Found
  | file (content : Text)
  | directory
  | failed (e : FileError)
  /-- It is not known yet. -/
  | unknown
deriving DecidableEq, Repr

/-- Files that can be read. -/
structure Disk where
  /-- What is found under a path. -/
  read : Text → Found
  /-- A bound on the number of files. -/
  size : Nat

/-- A directory with its files, held in memory. -/
structure FileTree where
  /-- The clean paths of the files, relative to the directory, and their contents. -/
  files : List (Text × Text)

namespace FileTree

/-- The files with given paths. -/
def ofList (files : List (Text × Text)) : FileTree :=
  ⟨files.map fun (path, content) => (Path.clean path, content)⟩

/-- The clean path with given parts. -/
def pathOf (parts : List Text) : Text := Text.joinWith [Path.slash] parts

/-- The content of the file with given parts. -/
def file? (t : FileTree) (parts : List Text) : Option Text := t.files.lookup (pathOf parts)

/-- Whether there is a directory with given parts: the whole tree, or one that holds a file. -/
def isDirectory (t : FileTree) (parts : List Text) : Bool :=
  parts.isEmpty || t.files.any fun (path, _) => (pathOf parts ++ [Path.slash]).isPrefixOf path

/-- What a path leads to: nothing, or the parts of a file or directory, which may not exist if all parts
but the last do. -/
def walk (t : FileTree) (parts : List Text) : List Text → Except FileError (List Text)
  | [] => .ok parts
  | part :: rest =>
    if part.isEmpty || part == Path.here then t.walk parts rest
    else if part == Path.above then
      if parts.isEmpty then .error .missing else t.walk parts.dropLast rest
    else
      -- All parts but the last have to be directories.
      let parts := parts ++ [part]
      if rest.isEmpty || t.isDirectory parts then t.walk parts rest
      else if (t.file? parts).isSome then .error .notDirectory
      else .error .missing

/-- What a path leads to, with the paths excluded that no file can have here. -/
def locate (t : FileTree) (path : Text) : Except FileError (List Text) :=
  if path.contains 0 then .error .invalidName
  else if path.isEmpty || Path.isAbsolute path then .error .missing
  else t.walk [] (Path.parts path)

/-- What is found under a path. -/
def read (t : FileTree) (path : Text) : Found :=
  match t.locate path with
  | .error e => .failed e
  | .ok parts =>
    if t.isDirectory parts then .directory
    else
      match t.file? parts with
      | some content => .file content
      | none => .failed .missing

/-- The tree with a file written. -/
def write (t : FileTree) (path content : Text) : Except FileError FileTree :=
  match t.locate path with
  | .error e => .error e
  | .ok parts =>
    if t.isDirectory parts then .error .isDirectory
    else .ok ⟨(pathOf parts, content) :: t.files.filter fun (name, _) => name != pathOf parts⟩

/-- The tree as files that can be read. -/
def disk (t : FileTree) : Disk := ⟨t.read, t.files.length⟩

end FileTree

end EightBit
