import EightBit.Cli.Flag

/-!
# Commands

The first argument that is neither a flag nor the value of one selects a command.

* `Command.select`: the command of some arguments, and the other arguments.
* `Command.suggestions`: the commands that a misspelled name may stand for.
-/

namespace EightBit

/-- The commands. -/
inductive Command
  /-- Source text to image. -/
  | assemble
  /-- Image to listing. -/
  | disassemble
  /-- Source text to a run. -/
  | run
  /-- The help on a command. -/
  | help
  /-- The script by which a shell completes commands. -/
  | completion
deriving DecidableEq, Repr

namespace Command

/-- The name of the program. -/
def program : Text := "asm8"

/-- All commands. -/
def all : List Command := [assemble, disassemble, run, help, completion]

/-- The name of a command. -/
def name : Command → Text
  | assemble => "asm"
  | disassemble => "dis"
  | run => "run"
  | help => "help"
  | completion => "completion"

/-- The flags of a command, or of the program by itself. -/
def flags : Option Command → List Flag
  | some .assemble => Flag.common ++ Flag.ofAssemble ++ [Flag.helpFlag]
  | some .disassemble => Flag.common ++ [Flag.originFlag, Flag.helpFlag]
  | some .run => Flag.common ++ Flag.ofRun ++ [Flag.helpFlag]
  | _ => Flag.common ++ [Flag.helpFlag]

/-- Whether the argument after a flag before the command is its value. Only the flags of every command
are known there. -/
def takesNext (argument : Text) : Bool :=
  !argument.contains Flag.equals &&
    if Flag.terminator.isPrefixOf argument then
      !Flag.common.any fun f => f.isSwitch && f.name == argument.drop 2
    else
      argument.length = 2 && argument.head? == some Flag.hyphen &&
        !Flag.common.any fun f => f.isSwitch && f.letter == argument[1]?

/-- The word that selects a command, and the arguments without it. -/
def word? : Bool → List Text → Option (Text × List Text)
  | _, [] => none
  | true, argument :: rest => (word? false rest).map fun (w, others) => (w, argument :: others)
  | false, argument :: rest =>
    let keep := fun (taken : Bool) => (word? taken rest).map fun (w, others) => (w, argument :: others)
    if argument == Flag.terminator then none
    -- The value of a flag is no command, and none follows a value that comes last.
    else if takesNext argument then if rest.length ≤ 1 then none else keep true
    else if argument.isEmpty || argument.head? == some Flag.hyphen then keep false
    else some (argument, rest)

/-- Whether at most `n` bytes have to be put in, taken out or replaced to get from one text to another. -/
def isNear (n : Nat) (s t : Text) : Bool :=
  match s, t with
  | [], t => t.length ≤ n
  | s, [] => s.length ≤ n
  | a :: s, b :: t =>
    (a == b && isNear n s t) ||
      match n with
      | 0 => false
      | n + 1 => isNear n s t || isNear n (a :: s) t || isNear n s (b :: t)
termination_by s.length + t.length

/-- The names of the commands that a misspelled name may stand for: those that start with it or are at
most two bytes away. The help is not suggested. -/
def suggestions (typed : Text) : List Text :=
  let typed := typed.toLower
  ((all.filter (· ≠ help)).map name).filter fun n => typed.isPrefixOf n || isNear 2 typed n

/-- The command of some arguments, if there is one, and the other arguments; or else a word that is no
command. -/
def select (arguments : List Text) : Except Text (Option Command × List Text) :=
  match word? false arguments with
  | none => .ok (none, arguments)
  | some (word, others) =>
    match all.find? fun c => c.name == word with
    | some c => .ok (some c, others)
    | none => .error word

/-- The text for a word that is no command. -/
def unknownMessage (word : Text) : Text :=
  let near := suggestions word
  let hint :=
    if near.isEmpty then []
    else ("\n\nDid you mean this?\n" : Text) ++ near.flatMap fun n => ("\t" : Text) ++ n ++ ("\n" : Text)
  ("unknown command " : Text) ++ word.quoted ++ (" for " : Text) ++ program.quoted ++ hint

end Command

end EightBit
