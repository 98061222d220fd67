import EightBit.Assembly.Assembler
import EightBit.Cli.Disk

/-!
# Building a file with its imports

An import names a file relative to the directory of the importing one. The file is assembled first, by
itself, and every file is assembled at most once. A file that is still being parsed cannot be imported,
so that no file imports itself.

* `Build.resolve`: the tree of an imported file.
* `Build.run`: the program of a file.
-/

namespace EightBit

/-- Why a file cannot be built. -/
inductive BuildError
  /-- The file cannot be opened. -/
  | unopened (path : Text) (e : FileError)
  /-- The file cannot be read. -/
  | unread (path : Text) (e : FileError)
  /-- The file has errors. -/
  | broken (errors : List Diagnostic)
  /-- Some statements cannot be encoded. -/
  | unassembled (errors : List AssemblyError)
deriving DecidableEq, Repr

/-- The text for an operation on a file that failed. -/
def FileError.during (e : FileError) (operation path : Text) : Text :=
  operation ++ (" " : Text) ++ path ++ (": " : Text) ++ e.message

/-- The text of an error, one line for each fault. -/
def BuildError.message : BuildError → Text
  | unopened path e => e.during "open" path
  | unread path e => e.during "read" path
  | broken errors => Text.joinWith "\n" (errors.map Diagnostic.message)
  | unassembled errors => Text.joinWith "\n" (errors.map AssemblyError.message)

/-- The files that were looked at, by clean path, the last one first. A file is entered without a tree
before it is parsed, and with its tree afterwards; the last entry of a path counts. -/
abbrev Sources := List (Text × Option Tree)

/-- The outcome of building a file. -/
structure Build where
  /-- What there is to tell. -/
  log : List Text := []
  /-- The files that were looked at. -/
  sources : Sources := []
  /-- The program with its tree, or what prevented it. -/
  result : Except BuildError Assembled

namespace Build

/-- The clean path of an imported file. -/
def importPath (dir name : Text) : Text :=
  if Path.isAbsolute name then Path.clean name else Path.join dir name

/-- Something done with the files, which ends early with a path that is not known yet. What it has to
tell comes with the result. -/
abbrev Action (α : Type) := Sources → Except Text (α × List Text × Sources)

/-- The trees under some names one after the other, each with what there is to tell about it. -/
def resolveAll (find : Text → Action (Option Tree)) :
    List Text → Sources → Except Text (List (Text × Option Tree × List Text) × Sources)
  | [], s => .ok ([], s)
  | name :: names, s => do
    let (tree, log, s) ← find name s
    let (rest, s) ← resolveAll find names s
    return ((name, tree, log) :: rest, s)

/-- The lines that tell events; what there is to tell about a file stands where it is looked up. -/
def interleave : List Event → List (List Text) → List Text
  | .lookup _ :: events, log :: logs => log ++ interleave events logs
  | e :: events, logs => e.line?.toList ++ interleave events logs
  | [], _ => []

/-- The tree of a source text, with its imports looked up. -/
def parse (a : Assembler) (find : Text → Action (Option Tree)) (name text : Text) : Action Tree :=
  fun s => do
    let tokens := (Token.tokenize a.arch.dialect name text).tokens
    let (found, s) ← resolveAll find (Preprocess.importNames a.arch.dialect tokens) s
    let trees := found.map fun (name, tree, _) => (name, tree)
    let p := { a with files := fun n => (trees.lookup n).join }.parse name text
    let logs := found.map fun (_, _, log) => log
    return (p.tree, interleave p.events logs ++ p.tree.parseReport, s)

/-- The tree of a file that another file in a directory imports. Files may import files to a given
depth. -/
def resolve (disk : Disk) (a : Assembler) : Nat → Text → Text → Action (Option Tree)
  | depth, dir, name, s =>
    let path := importPath dir name
    match s.lookup path with
    | some known => .ok (known, [], s)
    | none =>
      match disk.read path with
      | .unknown => .error path
      | .failed _ => .ok (none, [], s)
      | .directory => .ok (none, [], (path, none) :: s)
      | .file text =>
        match depth with
        | 0 => .ok (none, [], s)
        | depth + 1 => do
          -- The file is entered before it is parsed, so that an import of itself finds no tree.
          let (tree, log, s) ←
            parse a (resolve disk a depth (Path.dir path)) path text ((path, none) :: s)
          match a.assemble tree a.freshMemory with
          | none => return (some tree, log, (path, some tree) :: s)
          | some r => return (some r.tree, log ++ [r.report], (path, some r.tree) :: s)

/-- The outcome of building a file, or a path that is not known yet. -/
def run (disk : Disk) (a : Assembler) (file : Text) : Except Text Build :=
  match disk.read file with
  | .unknown => .error file
  | .failed e => .ok { result := .error (.unopened file e) }
  | .directory => .ok { result := .error (.unread file .isDirectory) }
  | .file text => do
    -- No chain of imports is longer than the number of files.
    let find := resolve disk a (disk.size + 1) (Path.dir file)
    let (tree, log, sources) ← parse a find file text [(Path.clean file, none)]
    match a.assemble tree a.freshMemory with
    | none => return { log, sources, result := .error (.broken tree.errors) }
    | some r =>
      let result := if r.errors.isEmpty then .ok r else .error (.unassembled r.errors)
      return { log := log ++ [r.report], sources, result }

end Build

end EightBit
