import EightBit.Cli.Build
import EightBit.Cli.Command
import EightBit.Cli.Language
import EightBit.Disassembly
import EightBit.Emulator
import EightBit.Mos6502.Execution

/-!
# The command line

What the program does with its arguments and files. A command that is not finished says what it waits for:
a file to be read or written, or time to execute more instructions.

* `Cli.start`: the command line.
* `Progress`: how far a command is, and `Progress.advance` and `Progress.write`, which bring it further.
-/

namespace EightBit

/-- The result of a command. -/
structure Exit where
  /-- The exit code. -/
  code : Nat := 0
  /-- The standard output. -/
  stdout : Text := []
  /-- The standard error output. -/
  stderr : Text := []
deriving DecidableEq, Repr

namespace Exit

/-- A line, with its end unless it has one. -/
def line (t : Text) : Text := if t.getLast? = some 0x0A then t else t ++ ("\n" : Text)

/-- The outcome with more lines on standard error. -/
def tell (o : Exit) (lines : List Text) : Exit :=
  { o with stderr := o.stderr ++ lines.flatMap line }

/-- The outcome with more text on standard output. -/
def print (o : Exit) (t : Text) : Exit := { o with stdout := o.stdout ++ t }

/-- The outcome of a failure with a message. -/
def fail (o : Exit) (message : Text) : Exit := { o.tell [message] with code := 1 }

/-- The outcome of arguments that cannot be understood. -/
def misused (message : Text) : Exit :=
  { code := 1, stderr := ("Error: " : Text) ++ message ++ ("\n" : Text) }

/-- The outcome of a file that cannot be written. -/
def unwritten (o : Exit) (path : Text) (e : FileError) : Exit :=
  o.fail (path ++ (": " : Text) ++ e.during "open" path)

end Exit

/-- How far a command is. -/
inductive Progress
  | finished (o : Exit)
  /-- A file has to be looked at first. -/
  | reading (path : Text)
  /-- A file has to be written; the outcome is that of success. -/
  | writing (path content : Text) (o : Exit)
  /-- A program runs without a limit; it may have been started already. -/
  | running (isFirst : Bool) (emu : Emulator) (o : Exit)

/-- A target with its behaviour. -/
structure Target where
  /-- The architecture. -/
  arch : Architecture
  /-- What the instructions do. -/
  behaviour : Behaviour

/-- The targets by name. -/
def Target.all : List (Text × Target) := [("6502", ⟨Mos6502.architecture, Mos6502.behaviour⟩)]

namespace Cli

/-- A text after the name of what it is about. -/
def about (subject message : Text) : Text := subject ++ (": " : Text) ++ message

/-- What is told if that is asked for. -/
def told (o : Options) (lines : List Text) : Exit := ({} : Exit).tell (if o.verbose then lines else [])

/-- The assembler that the options describe. -/
def assembler (o : Options) (t : Target) : Assembler :=
  let base := Assembler.ofArchitecture t.arch
  let base := { base with origin := o.origin.getD base.origin, wrapBranches := o.wrapBranches }
  o.defines.foldl
    (fun a define =>
      let (name, value) := (Text.cut? Flag.equals define).getD (define, ("1" : Text))
      a.predefine name value)
    base

/-- Goes on with a program that was built, after telling about it. -/
def withBuild (disk : Disk) (o : Options) (a : Assembler) (file : Text)
    (next : Assembled → Exit → Progress) : Progress :=
  match Build.run disk a file with
  | .error path => .reading path
  | .ok build =>
    let outcome := told o build.log
    match build.result with
    | .error e => .finished (outcome.fail (about file e.message))
    | .ok r => next r outcome

/-- Assembles a file. -/
def assemble (disk : Disk) (o : Options) (t : Target) (file : Text) : Progress :=
  withBuild disk o (assembler o t) file fun r outcome =>
    let outcome := outcome.tell (r.tree.diagnostics.map Diagnostic.message)
    let outcome := if o.listing then outcome.print r.program.rows.text else outcome
    if o.output.isEmpty then .finished outcome else .writing o.output r.program.binary outcome

/-- Disassembles an image. -/
def disassemble (disk : Disk) (o : Options) (t : Target) (file : Text) : Progress :=
  match disk.read file with
  | .unknown => .reading file
  | .failed e => .finished (({} : Exit).fail (about file (e.during "open" file)))
  | .directory => .finished (({} : Exit).fail (about file (FileError.isDirectory.during "read" file)))
  | .file image =>
    let start := o.origin.getD t.arch.origin
    let memory := (Memory.empty t.arch.addressWidth t.arch.byteOrder).load start image .program
    let d := Disassembly.run t.arch memory (fun _ => []) start (start + image.length.toUInt64)
    let outcome := told o d.report
    match d.ending with
    | .reached => .finished (outcome.print d.rows.text)
    | .failed e => .finished ((outcome.print d.rows.text).fail (about file e.message))
    -- There is no address left to go on from.
    | .overflowed _ => .finished { outcome with code := 2 }

/-- The outcome of a run that stopped. -/
def stopped (emu : Emulator) (stop : Stop) (outcome : Exit) : Exit :=
  let outcome := outcome.tell emu.log.reverse
  let final := fun (t : Text) => (outcome.print t).print emu.cpu.describe
  match stop with
  | .done => final []
  | .error .breakpoint => final (("break at line " : Text) ++ Text.ofInt emu.loc.line ++ ("\n" : Text))
  | .error .stepLimit =>
    final (("stopped after " : Text) ++ Text.ofNat emu.cpu.steps ++ (" steps\n" : Text))
  | .error e => outcome.fail e.message

/-- The emulator with breakpoints at some lines of a file, or the first line that has none. -/
def setBreaks (file : Text) : List Int → Emulator → Except (Int × EmulatorError) Emulator
  | [], emu => .ok emu
  | line :: lines, emu =>
    match emu.setLineBreakpoint file line with
    | .error e => .error (line, e)
    | .ok emu => setBreaks file lines emu

/-- Assembles a file and runs it. -/
def run (disk : Disk) (o : Options) (t : Target) (file : Text) : Progress :=
  let emu := { Emulator.ofArchitecture t.arch t.behaviour with verbose := o.verbose }
  let a := emu.defines.foldl (fun a (name, value) => a.predefine name value) (.ofArchitecture t.arch)
  withBuild disk o a file fun r outcome =>
    match setBreaks file o.breaks { emu with program := some r.program } with
    | .error (line, e) =>
      .finished (outcome.fail (about (file ++ (":" : Text) ++ Text.ofInt line) e.message))
    | .ok emu =>
      match emu.reset with
      | (emu, some e) => .finished ((outcome.tell emu.log.reverse).fail (about file e.message))
      | (emu, none) =>
        if o.steps ≤ 0 then .running true emu outcome
        else
          let (emu, stop) := emu.run o.steps.toNat
          .finished (stopped emu stop outcome)

/-- Does a command with its only operand. The help texts are empty. -/
def perform (disk : Disk) (c : Command) (o : Options) (file : Text) : Progress :=
  match Target.all.lookup o.arch with
  | none =>
    .finished (({} : Exit).fail
      (about Command.program (("unknown architecture " : Text) ++ o.arch.quoted)))
  | some t =>
    match c with
    | .assemble => assemble disk o t file
    | .disassemble => disassemble disk o t file
    | .run => run disk o t file
    | .help => .finished {}
    | .completion => .finished {}


/-- Does what the arguments say. The first of these counts: a word that is no command, a flag that cannot
be read, the wish for help, a wrong number of operands, an unknown language. -/
def start (disk : Disk) (arguments : List Text) : Progress :=
  match Command.select arguments with
  | .error word =>
    .finished ((Exit.misused (Command.unknownMessage word)).tell
      [("Run '" : Text) ++ Command.program ++ (" --help' for usage." : Text)])
  | .ok (some .help, _) => .finished {}
  | .ok (some .completion, _) => .finished {}
  | .ok (command, arguments) =>
    match Flag.parse (Command.flags command) arguments with
    | .error e => .finished (.misused e.message)
    | .ok (o, operands) =>
      match command, operands with
      | none, _ => .finished {}
      | some c, operands =>
        if o.help then .finished {}
        else
          match operands with
          | [file] =>
            match if o.language.isEmpty then none else LanguageTag.check o.language with
            | some e => .finished (.misused e.message)
            | none => perform disk c o file
          | _ =>
            .finished (.misused
              (("accepts 1 arg(s), received " : Text) ++ Text.ofNat operands.length))

end Cli

namespace Progress

/-- A running program after more instructions. -/
def advance (steps : Nat) : Progress → Progress
  | .running isFirst emu outcome =>
    match emu.resume isFirst steps with
    | (emu, some stop) => .finished (Cli.stopped emu stop outcome)
    | (emu, none) => .running (isFirst && steps = 0) emu outcome
  | p => p

/-- What a running program has told so far, and the program without it. -/
def flush : Progress → Text × Progress
  | .running isFirst emu outcome =>
    ((outcome.tell emu.log.reverse).stderr,
      .running isFirst { emu with log := [] } { outcome with stderr := [] })
  | p => ([], p)

/-- The files after those that have to be written. -/
def write (files : FileTree) : Progress → Progress × FileTree
  | .writing path content outcome =>
    match files.write path content with
    | .ok files => (.finished outcome, files)
    | .error e => (.finished (outcome.unwritten path e), files)
  | p => (p, files)

end Progress

end EightBit
