import EightBit.Isa.Mode

/-!
# Instruction tables

The table of an instruction set: which mnemonic has which opcode in which addressing mode. Assembler,
disassembler and execution engine all consult it, so what one of them encodes the others decode. No
opcode occurs twice in a table.

* `Table.build`: the table of some mnemonics, up to the first conflict.
* `Table.lookup?`, `Table.decode?`: the entry of a mnemonic and mode, and of an opcode.
-/

namespace EightBit

/-- A row of an instruction table. -/
structure Entry where
  /-- The mnemonic, in capitals. -/
  mnemonic : Text
  /-- The addressing mode. -/
  mode : Mode
  /-- The opcode. -/
  opcode : UInt8
deriving DecidableEq, Repr

/-- Mnemonic, mode and opcode. -/
def Entry.describe (e : Entry) : Text :=
  e.mnemonic ++ (" " : Text) ++ e.mode.name ++ (" " : Text) ++ Text.hexUpper 2 e.opcode.toNat

/-- The opcodes of an instruction by addressing mode. -/
structure Mnemonic where
  /-- The name of the instruction. -/
  name : Text
  /-- The opcode of each mode that the instruction has. -/
  opcodes : List (Mode × UInt8)

/-- Why mnemonics make no table. -/
inductive TableError
  /-- A mnemonic is given twice. -/
  | mnemonicDuplicate (name : Text)
  /-- An opcode is given to two entries. -/
  | opcodeDuplicate (first second : Entry)
  /-- A mnemonic uses a mode that the instruction set does not list. -/
  | modeUnknown (mnemonic mode : Text)
deriving DecidableEq, Repr

/-- The text of a table error. -/
def TableError.message : TableError → Text
  | mnemonicDuplicate name => ("mnemonic " : Text) ++ name ++ (" defined twice" : Text)
  | opcodeDuplicate first second =>
    ("opcode $" : Text) ++ Text.hexUpper 2 second.opcode.toNat ++ (" used by both " : Text)
      ++ first.describe ++ (" and " : Text) ++ second.describe
  | modeUnknown mnemonic mode => mnemonic ++ (" uses unlisted addressing mode " : Text) ++ mode

/-- An instruction table. -/
structure Table where
  /-- The known mnemonics, in capitals. -/
  names : List Text := []
  /-- The entries. -/
  entries : List Entry := []

namespace Table

/-- Whether a mnemonic is known, in any letter case. -/
def isKnown (t : Table) (mnemonic : Text) : Bool := t.names.contains mnemonic.toUpper

/-- The entry of a mnemonic, in any letter case, in an addressing mode. -/
def lookup? (t : Table) (mnemonic : Text) (mode : Mode) : Option Entry :=
  t.entries.find? fun e => e.mnemonic == mnemonic.toUpper && e.mode == mode

/-- The entry of an opcode. -/
def decode? (t : Table) (opcode : UInt8) : Option Entry := t.entries.find? (·.opcode == opcode)

/-- The modes of a mnemonic, in any letter case. -/
def modesOf (t : Table) (mnemonic : Text) : List Mode :=
  (t.entries.filter (·.mnemonic == mnemonic.toUpper)).map Entry.mode

/-- Adds the entries of a mnemonic, by priority of their modes, up to an opcode that is taken. -/
def addEntries (name : Text) (opcodes : List (Mode × UInt8)) : List Mode → Table → Table × Option TableError
  | [], t => (t, none)
  | mode :: modes, t =>
    match opcodes.lookup mode with
    | none => addEntries name opcodes modes t
    | some opcode =>
      let entry : Entry := ⟨name, mode, opcode⟩
      match t.decode? opcode with
      | some prior => (t, some (.opcodeDuplicate prior entry))
      | none => addEntries name opcodes modes { t with entries := t.entries ++ [entry] }

/-- Adds a mnemonic, unless its name is taken. -/
def addMnemonic (modes : List Mode) (m : Mnemonic) (t : Table) : Table × Option TableError :=
  let name := m.name.toUpper
  if t.names.contains name then (t, some (.mnemonicDuplicate name))
  else
    match addEntries name m.opcodes modes { t with names := t.names ++ [name] } with
    | (t, some e) => (t, some e)
    | (t, none) =>
      (t, (m.opcodes.find? fun (mode, _) => !modes.contains mode).map fun (mode, _) =>
        .modeUnknown name mode.name)

/-- Adds mnemonics in order, up to the first error. -/
def addAll (modes : List Mode) : List Mnemonic → Table → Table × Option TableError
  | [], t => (t, none)
  | m :: ms, t =>
    match addMnemonic modes m t with
    | (t, some e) => (t, some e)
    | (t, none) => addAll modes ms t

/-- The table of some mnemonics with modes by priority, or what was built before the first error. -/
def build (modes : List Mode) (mnemonics : List Mnemonic) : Table × Option TableError :=
  addAll modes mnemonics {}

end Table

end EightBit
