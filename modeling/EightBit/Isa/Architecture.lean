import EightBit.Isa.Table

/-!
# Architectures

Everything that distinguishes one target from another: the dialect of its sources, its instruction set,
its data directives, its registers and its memory layout.

* `Architecture`: the definition of a target.
* `Architecture.recognize`: the instruction that a mnemonic and operand tokens denote.
-/

namespace EightBit

/-- A directive that emits data. -/
structure DataDirective where
  /-- The name, such as `.word`. -/
  name : Text
  /-- The number of bytes of an element. -/
  size : Nat
  /-- Whether elements stand at multiples of their size. -/
  aligned : Bool := false
deriving DecidableEq, Repr

/-- The definition of a register. -/
structure RegisterDef where
  /-- The name. -/
  name : Text
  /-- Other names. -/
  aliases : List Text := []
  /-- The width in bits. -/
  width : Nat
  /-- The names of the bits from the lowest on; an unused bit has an empty name. -/
  flags : List Text := []
deriving DecidableEq, Repr

namespace RegisterDef

/-- Whether a name is the register's name or one of its other names, in any letter case. -/
def isNamed (r : RegisterDef) (name : Text) : Bool :=
  r.name.equalFold name || r.aliases.any (·.equalFold name)

end RegisterDef

/-- The definition of a target. -/
structure Architecture where
  /-- The name of the target. -/
  name : Text
  /-- The lexical conventions of its sources. -/
  dialect : Dialect
  /-- The addressing modes by priority. -/
  modes : List Mode
  /-- The instruction table. -/
  table : Table
  /-- The data directives. -/
  data : List DataDirective
  /-- The registers. -/
  registers : List RegisterDef
  /-- The name of the program counter. -/
  pc : Text
  /-- The width of an address in bits. -/
  addressWidth : Nat
  /-- The order of bytes in words; the lowest comes first where none is given. -/
  byteOrder : Option ByteOrder
  /-- The address of the first element of a program. -/
  origin : UInt64
  /-- Whether data directives accept words that are no labels. -/
  symbolicData : Bool := false
  /-- Named constants offered to programs. -/
  equates : List (Text × UInt64) := []

/-- Why a statement is no instruction. -/
inductive RecognizeError
  /-- No instruction has the mnemonic. -/
  | mnemonicUnknown (mnemonic : Text)
  /-- No addressing mode of the instruction accepts the operand. -/
  | modeInvalid (mnemonic operand : Text)
deriving DecidableEq, Repr

/-- The text of an error in recognising an instruction. -/
def RecognizeError.message : RecognizeError → Text
  | mnemonicUnknown mnemonic => ("unknown mnemonic '" : Text) ++ mnemonic ++ ("'" : Text)
  | modeInvalid mnemonic [] => mnemonic ++ (" requires an operand" : Text)
  | modeInvalid mnemonic operand =>
    mnemonic ++ (" does not accept operand '" : Text) ++ operand ++ ("'" : Text)

namespace Architecture

/-- The order of bytes in words. -/
def order (arch : Architecture) : ByteOrder := arch.byteOrder.getD .little

/-- The bits of an address. -/
def addressMask (arch : Architecture) : UInt64 := Word.mask arch.addressWidth

/-- The low `size` bytes of a word in the order of the architecture. -/
def encode (arch : Architecture) (value : UInt64) (size : Nat) : List UInt8 :=
  arch.order.encode value size

/-- The word that bytes stand for in the order of the architecture. -/
def decode (arch : Architecture) (bytes : List UInt8) : UInt64 := arch.order.decode bytes

/-- The data directive with a name, in any letter case. -/
def directive? (arch : Architecture) (name : Text) : Option DataDirective :=
  arch.data.find? (·.name.equalFold name)

/-- The register with a name or other name, in any letter case. -/
def register? (arch : Architecture) (name : Text) : Option RegisterDef :=
  arch.registers.find? (·.isNamed name)

/-- The instruction that a mnemonic and operand tokens denote: the first mode by priority in which the
operand is written and for which the mnemonic has an opcode. The token that holds the operand comes
with it, if the mode has one. -/
def recognize (arch : Architecture) (mnemonic : Text) (operand : List Token) :
    Except RecognizeError (Entry × Option Token) :=
  let name := mnemonic.toUpper
  if !arch.table.isKnown name then .error (.mnemonicUnknown mnemonic)
  else
    let found := arch.modes.findSome? fun mode =>
      (mode.match? operand).bind fun tok => (arch.table.lookup? name mode).map fun e => (e, tok)
    match found with
    | some r => .ok r
    | none => .error (.modeInvalid name (Token.join (Token.trim operand)))

end Architecture

end EightBit
