import EightBit.Cli.Reading

/-!
# Flags

Flags set options. They stand anywhere among the arguments: `--name value` or `--name=value`, or a group of
letters such as `-vo value`, where a letter that needs a value takes the rest of the group. All other
arguments are operands, and so are those after `--`.

* `Options`: what the flags of all commands set.
* `Flag.parse`: the options and operands of some arguments.
-/

namespace EightBit

/-- What flags set. -/
structure Options where
  /-- The name of the target. -/
  arch : Text := "6502"
  /-- Whether there is a report on what is done. -/
  verbose : Bool := false
  /-- The language of messages. -/
  language : Text := []
  /-- Whether only help is asked for. -/
  help : Bool := false
  /-- The file for the image. -/
  output : Text := []
  /-- Whether the tree is shown. -/
  tree : Bool := false
  /-- Whether the listing is shown. -/
  listing : Bool := false
  /-- The address of the first byte, if it is not that of the target. -/
  origin : Option UInt64 := none
  /-- Whether branches out of range are cut off. -/
  wrapBranches : Bool := false
  /-- Values defined beforehand, as `name=value`. -/
  defines : List Text := []
  /-- The most instructions to run; there is no limit unless it is positive. -/
  steps : Int := 0
  /-- The source lines to stop before. -/
  breaks : List Int := []
deriving DecidableEq, Repr

/-- A flag. -/
structure Flag where
  /-- The name. -/
  name : Text
  /-- The letter that stands for the name. -/
  letter : Option UInt8 := none
  /-- Whether the flag says yes where it has no value. -/
  isSwitch : Bool := false
  /-- The options with the value of the flag. -/
  set : Text → Options → Except ReadingError Options

/-- What can be wrong with flags. -/
inductive FlagError
  /-- An argument is no flag, for all that it starts with two hyphens. -/
  | malformed (argument : Text)
  | unknown (name : Text)
  /-- A group of letters starts with one that stands for no flag. -/
  | unknownLetter (letter : UInt8) (group : Text)
  /-- An argument is the last one and lacks a value. -/
  | noValue (argument : Text)
  /-- A group of one letter is the last argument and lacks a value. -/
  | noLetterValue (letter : UInt8)
  /-- The value of a flag cannot be read. -/
  | invalid (value flag : Text) (e : ReadingError)
deriving DecidableEq, Repr

/-- A letter between single quotes. -/
def quotedLetter (letter : UInt8) : Text :=
  let written :=
    if letter = 0x27 then [0x5C, 0x27]
    else if letter = 0x22 then [0x22]
    else Quoted.writeCode letter.toNat
  0x27 :: written ++ [0x27]

/-- The text of an error. -/
def FlagError.message : FlagError → Text
  | malformed argument => ("bad flag syntax: " : Text) ++ argument
  | unknown name => ("unknown flag: --" : Text) ++ name
  | unknownLetter letter group =>
    ("unknown shorthand flag: " : Text) ++ quotedLetter letter ++ (" in -" : Text) ++ group
  | noValue argument => ("flag needs an argument: " : Text) ++ argument
  | noLetterValue letter =>
    ("flag needs an argument: " : Text) ++ quotedLetter letter ++ (" in -" : Text) ++ [letter]
  | invalid value flag e =>
    ("invalid argument " : Text) ++ value.quoted ++ (" for " : Text) ++ flag.quoted ++ (" flag: " : Text)
      ++ e.message

namespace Flag

/-- A hyphen. -/
def hyphen : UInt8 := 0x2D

/-- An equals sign. -/
def equals : UInt8 := 0x3D

/-- The argument after which there are only operands. -/
def terminator : Text := "--"

/-- The flag as messages show it. -/
def title (f : Flag) : Text :=
  let name := terminator ++ f.name
  f.letter.elim name fun letter => [hyphen, letter] ++ (", " : Text) ++ name

/-- The value of a switch that has none. -/
def said : Text := "true"

/-- The options with the value of a flag. -/
def apply (f : Flag) (value : Text) (o : Options) : Except FlagError Options :=
  (f.set value o).mapError (FlagError.invalid value f.title)

/-- The options after a flag, and whether it took the argument after it. -/
def applyNext (f : Flag) (missing : FlagError) (next : Option Text) (o : Options) :
    Except FlagError (Options × Bool) :=
  match next with
  | none => .error missing
  | some value => (f.apply value o).map fun o => (o, true)

/-- The options after an argument that starts with two hyphens, and whether it took the next one. -/
def long (flags : List Flag) (argument : Text) (next : Option Text) (o : Options) :
    Except FlagError (Options × Bool) :=
  let body := argument.drop 2
  if body.isEmpty || body.head? == some hyphen || body.head? == some equals then
    .error (.malformed argument)
  else
    let (name, value) := (Text.cut? equals body).elim (body, none) fun (n, v) => (n, some v)
    match flags.find? fun f => f.name == name with
    | none => .error (.unknown name)
    | some f =>
      match value with
      | some value => (f.apply value o).map fun o => (o, false)
      | none =>
        if f.isSwitch then (f.apply said o).map fun o => (o, false)
        else f.applyNext (.noValue argument) next o

/-- The options after a group of letters, and whether it took the next argument. -/
def short (flags : List Flag) (next : Option Text) : Text → Options → Except FlagError (Options × Bool)
  | [], o => .ok (o, false)
  | letter :: rest, o =>
    match flags.find? fun f => f.letter == some letter with
    | none => .error (.unknownLetter letter (letter :: rest))
    | some f =>
      -- An equals sign with nothing after it is the next letter, or the value itself.
      if rest.head? == some equals && 2 ≤ rest.length then
        (f.apply (rest.drop 1) o).map fun o => (o, false)
      else if f.isSwitch then
        match f.apply said o with
        | .error e => .error e
        | .ok o => short flags next rest o
      else if rest.isEmpty then f.applyNext (.noLetterValue letter) next o
      else (f.apply rest o).map fun o => (o, false)

/-- Whether an argument holds flags. -/
def isFlag (argument : Text) : Bool := argument.head? == some hyphen && 2 ≤ argument.length

/-- The options and operands of some arguments, when the first one may be the value of a flag before. -/
def parseFrom (flags : List Flag) :
    Bool → List Text → Options → Except FlagError (Options × List Text)
  | _, [], o => .ok (o, [])
  | true, _ :: rest, o => parseFrom flags false rest o
  | false, argument :: rest, o =>
    if argument == terminator then .ok (o, rest)
    else if !isFlag argument then
      (parseFrom flags false rest o).map fun (o, operands) => (o, argument :: operands)
    else
      let read :=
        if terminator.isPrefixOf argument then long flags argument rest.head? o
        else short flags rest.head? (argument.drop 1) o
      match read with
      | .error e => .error e
      | .ok (o, taken) => parseFrom flags taken rest o

/-- The options and operands of some arguments. The first error from the left counts. -/
def parse (flags : List Flag) (arguments : List Text) : Except FlagError (Options × List Text) :=
  parseFrom flags false arguments {}

/-- A flag whose value is a text. -/
def ofText (name : Text) (letter : Option Char) (set : Text → Options → Options) : Flag where
  name := name
  letter := letter.map Text.byteOf
  set := fun t o => .ok (set t o)

/-- A flag that says yes or no. -/
def ofSwitch (name : Text) (letter : Option Char) (set : Bool → Options → Options) : Flag where
  name := name
  letter := letter.map Text.byteOf
  isSwitch := true
  set := fun t o => (Reading.switch t).map fun b => set b o

/-- The flags of every command. -/
def common : List Flag := [
  ofText "arch" (some 'm') fun t o => { o with arch := t },
  ofSwitch "verbose" (some 'v') fun b o => { o with verbose := b },
  ofText "lang" none fun t o => { o with language := t }]

/-- The flag that asks for help. -/
def helpFlag : Flag := ofSwitch "help" (some 'h') fun b o => { o with help := b }

/-- The flag that gives the address of the first byte. -/
def originFlag : Flag where
  name := "origin"
  set := fun t o => (Reading.natural t).map fun n => { o with origin := some n }

/-- The flags for assembling. -/
def ofAssemble : List Flag := [
  ofText "output" (some 'o') fun t o => { o with output := t },
  ofSwitch "tree" none fun b o => { o with tree := b },
  ofSwitch "listing" (some 'l') fun b o => { o with listing := b },
  originFlag,
  ofSwitch "wrap-branches" none fun b o => { o with wrapBranches := b },
  ofText "define" (some 'D') fun t o => { o with defines := o.defines ++ [t] }]

/-- The flags for running. -/
def ofRun : List Flag := [
  { name := "steps", set := fun t o => (Reading.integer t).map fun n => { o with steps := n } },
  { name := "break"
    set := fun t o => (Reading.integers t).map fun ns => { o with breaks := o.breaks ++ ns } }]

end Flag

end EightBit
