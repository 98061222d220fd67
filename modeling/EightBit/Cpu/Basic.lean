import EightBit.Cpu.Register
import EightBit.Memory

/-!
# Processors

A processor has registers and memory. It runs only after a reset, and stops for good when a register
that it needs is missing, until it is configured anew.

* `Cpu`: the state of a processor.
* `CpuError`: everything that can go wrong.
-/

namespace EightBit

/-- What can go wrong with a processor. -/
inductive CpuError
  | notReset
  /-- An earlier error, the lack of a register, still holds. -/
  | halted (register : Text)
  | noStatus
  | operandMissing
  | addressMissing
  | registerMissing (name : Text)
  | flagMissing (name : Text)
  | opcodeUnknown (address : UInt64) (opcode : UInt8)
  | routineMissing (mnemonic : Text)
deriving DecidableEq, Repr

namespace CpuError

/-- What a processor says that was stopped earlier. -/
def haltedMessage : Text := "cpu halted until reconfigured"

/-- The text for the lack of a register. -/
def registerMissingMessage (name : Text) : Text :=
  ("register " : Text) ++ name ++ (" missing" : Text)

/-- The text of an error. -/
def message : CpuError → Text
  | notReset => "cpu not reset"
  | halted register => haltedMessage ++ ("\n" : Text) ++ registerMissingMessage register
  | noStatus => "no status register"
  | operandMissing => "operand missing"
  | addressMissing => "effective address missing"
  | registerMissing name => registerMissingMessage name
  | flagMissing name => ("flag " : Text) ++ name ++ (" missing" : Text)
  | opcodeUnknown address opcode =>
    ("unknown opcode $" : Text) ++ Text.hexUpper 2 opcode.toNat ++ (" at $" : Text)
      ++ Text.hexUpper 4 address.toNat
  | routineMissing mnemonic => ("no routine for " : Text) ++ mnemonic

end CpuError

/-- The state of a processor. -/
structure Cpu where
  /-- The architecture. -/
  arch : Architecture
  /-- The registers. -/
  registers : RegisterFile
  /-- The memory. -/
  memory : Memory
  /-- The number of instructions since the reset. -/
  steps : Nat := 0
  /-- Whether the processor was reset. -/
  ready : Bool := false
  /-- The missing register that stopped the processor. -/
  fault : Option Text := none

namespace Cpu

/-- A processor that was not reset. -/
def ofArchitecture (arch : Architecture) : Cpu where
  arch := arch
  registers := .ofDefinitions arch.registers
  memory := .empty arch.addressWidth arch.byteOrder

/-- The processor with other registers, as if there had been no fault. It has to be reset again. -/
def configure (c : Cpu) (registers : RegisterFile) : Cpu :=
  { c with registers, fault := none, ready := false }

/-- The value of a register; zero if there is none. -/
def get (c : Cpu) (name : Text) : UInt64 := c.registers.get name

/-- The processor with a register set, if there is one. -/
def set (c : Cpu) (name : Text) (value : UInt64) : Cpu :=
  { c with registers := c.registers.update name (·.set value) }

/-- The register with a name. -/
def register (c : Cpu) (name : Text) : Except CpuError Register :=
  match c.registers.find? name with
  | some r => .ok r
  | none => .error (.registerMissing name)

/-- The program counter. -/
def pc (c : Cpu) : UInt64 := c.get c.arch.pc

/-- Whether a bit of the status register is set. -/
def flag (c : Cpu) (name : Text) : Except CpuError Bool :=
  match c.registers.status? with
  | none => .error .noStatus
  | some r =>
    match r.flag? name with
    | some on => .ok on
    | none => .error (.flagMissing name)

/-- The processor with a bit of the status register set or cleared. -/
def setFlag (c : Cpu) (name : Text) (on : Bool) : Except CpuError Cpu :=
  (c.flag name).map fun _ =>
    { c with registers := c.registers.updateWhere RegisterFile.isStatus (·.setFlag name on) }

/-- The registers as text, one line each. -/
def describe (c : Cpu) : Text := c.registers.flatMap Register.line

end Cpu

end EightBit
