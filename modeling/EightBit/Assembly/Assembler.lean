import EightBit.Assembly.Program
import EightBit.Tree.Parse

/-!
# The assembler

The way from source text to a program, with what there is to tell about it.

* `Assembler.parse`: the tree of a source text.
* `Assembler.assemble`: the program of a tree without errors.
-/

namespace EightBit

/-- The settings of an assembler. -/
structure Assembler where
  /-- The target. -/
  arch : Architecture
  /-- The trees of files that may be imported. -/
  files : Text → Option Tree := fun _ => none
  /-- The address of the first statement. -/
  origin : UInt64
  /-- Whether branches out of range are cut off rather than refused. -/
  wrapBranches : Bool := false
  /-- Values defined beforehand; the first one of a name counts. -/
  predefined : List (Text × Text) := []

/-- A parsed source text. -/
structure Parsed where
  /-- The tree. -/
  tree : Tree
  /-- What the preprocessor has to tell. -/
  events : List Event

namespace Assembler

/-- An assembler that starts at the default address of a target. -/
def ofArchitecture (arch : Architecture) : Assembler := { arch, origin := arch.origin }

/-- The assembler with one more value defined, instead of an earlier one of that name. -/
def predefine (a : Assembler) (name value : Text) : Assembler :=
  { a with predefined := (name, value) :: a.predefined }

/-- An address as a constant of the dialect: hexadecimal where it has a way to write it. -/
def addressConstant (d : Dialect) (addr : UInt64) : Text :=
  match d.hexPrefixes with
  | [] => Text.ofNat addr.toNat
  | p :: _ => p ++ Text.hexUpper 0 addr.toNat

/-- All values defined beforehand: the settings of the assembler may be overridden. -/
def defines (a : Assembler) : List (Text × Text) :=
  a.predefined ++
    [(("ORIGIN" : Text), addressConstant a.arch.dialect a.origin),
      (("ADDRESS_WIDTH" : Text), Text.ofNat a.arch.addressWidth)]

/-- The diagnostic for a character at which the scan stopped. -/
def lexDiagnostic (e : LexError) : Diagnostic :=
  .error (.lexical e) [{ kind := .symbol, text := e.text, loc := e.loc }]

/-- The tree of a source text. What was scanned before an unreadable character is parsed, and the
character is reported first. -/
def parse (a : Assembler) (name text : Text) : Parsed :=
  let scanned := Token.tokenize a.arch.dialect name text
  let r := Preprocess.run { dialect := a.arch.dialect, files := a.files, defines := a.defines } name
    scanned.tokens
  let out := r.output
  let out := { out with
    diagnostics := (scanned.error.map lexDiagnostic).toList ++ out.diagnostics }
  { tree := .parse a.arch { r with output := out }, events := out.events }

/-- The program of a tree over a memory; none if the tree has errors. -/
def assemble (a : Assembler) (t : Tree) (memory : Memory) : Option Assembled :=
  if t.errors.isEmpty then some (t.assemble a.arch a.origin a.wrapBranches memory) else none

/-- A memory of the target without contents. -/
def freshMemory (a : Assembler) : Memory := .empty a.arch.addressWidth a.arch.byteOrder

end Assembler

/-- What there is to tell about a tree once it is parsed. -/
def Tree.parseReport (t : Tree) : List Text :=
  let found := Text.ofNat t.diagnostics.length ++ (" diagnostics" : Text)
  [("parser: " : Text) ++ t.file ++ (": " : Text) ++ Text.ofNat t.sections.length ++ (" sections, " : Text)
      ++ Text.ofNat t.labels.size ++ (" labels, " : Text) ++ found,
    ("asm: " : Text) ++ t.file ++ (": parsed, " : Text) ++ found]

/-- What there is to tell about a parsed source text. -/
def Parsed.report (p : Parsed) : List Text := p.events.filterMap Event.line? ++ p.tree.parseReport

/-- What there is to tell about an assembled program. -/
def Assembled.report (a : Assembled) : Text :=
  ("asm: " : Text) ++ a.tree.file ++ (": $" : Text) ++ Text.hexUpper 4 a.program.start.toNat
    ++ ("-$" : Text) ++ Text.hexUpper 4 a.program.stop.toNat ++ (", " : Text)
    ++ Text.ofNat a.program.rows.transcript.length ++ (" rows, " : Text)
    ++ Text.ofNat a.errors.length ++ (" errors" : Text)

end EightBit
