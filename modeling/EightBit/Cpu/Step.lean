import EightBit.Cpu.Basic

/-!
# Execution

The cycle of fetching, decoding and executing instructions. What the instructions do is given by the
behaviour of the processor.

* `Behaviour`: what distinguishes one processor from another.
* `Cpu.reset`: a processor at the start of a program.
* `Cpu.step`: one instruction.
-/

namespace EightBit

/-- What an addressing mode yields for an instruction. -/
structure Resolved where
  /-- The bytes of the operand as a word. -/
  raw : UInt64
  /-- The value of the operand. -/
  value : Option UInt64 := none
  /-- The address that the operand stands for. -/
  address : Option UInt64 := none
deriving DecidableEq, Repr

/-- The effect of an instruction: the processor after it, and the address of the next instruction where
it is not the one that follows. What was changed before an error stays changed. -/
structure Effect where
  /-- The processor after the instruction. -/
  cpu : Cpu
  /-- The address of the next instruction if it was chosen, or what went wrong. -/
  next : Except CpuError (Option UInt64)

/-- What distinguishes one processor from another. -/
structure Behaviour where
  /-- The registers that have to be there, apart from the program counter. -/
  required : List Text
  /-- The processor with its registers as after power-on. -/
  powerOn : Cpu → Cpu
  /-- The operand of an instruction at an address. -/
  resolve : Cpu → Mode → UInt64 → UInt64 → Resolved
  /-- The effect of an instruction at an address. -/
  execute : Cpu → Entry → Resolved → UInt64 → Effect

namespace Cpu

/-- The first register that is needed and missing. -/
def missing? (b : Behaviour) (c : Cpu) : Option Text :=
  (c.arch.pc :: b.required).find? fun name => (c.registers.find? name).isNone

/-- The processor at the start of a program, or what prevents it. A missing register stops the
processor. -/
def reset (b : Behaviour) (c : Cpu) (entry : UInt64) : Cpu × Option CpuError :=
  match c.missing? b with
  | some name => ({ c with fault := some name }, some (.registerMissing name))
  | none =>
    let c := b.powerOn { c with registers := c.registers.clear }
    ({ c.set c.arch.pc entry with steps := 0, ready := true }, none)

/-- The bytes after an opcode as a word. -/
def operandWord (c : Cpu) (pc : UInt64) (mode : Mode) : UInt64 :=
  if mode.operandSize = 0 then 0 else c.memory.readWord (pc + 1) mode.operandSize

/-- The processor after the instruction of a table entry, or with what went wrong. -/
def perform (b : Behaviour) (c : Cpu) (e : Entry) : Cpu × Option CpuError :=
  let pc := c.pc
  let op := b.resolve c e.mode (c.operandWord pc e.mode) pc
  let effect := b.execute c e op pc
  let c := effect.cpu
  match effect.next with
  | .error err => (c, some err)
  | .ok next =>
    let next := next.getD (pc + e.mode.length.toUInt64)
    ({ c.set c.arch.pc (next &&& c.arch.addressMask) with steps := c.steps + 1 }, none)

/-- The processor after one instruction, or with what prevented it. -/
def step (b : Behaviour) (c : Cpu) : Cpu × Option CpuError :=
  match c.fault with
  | some name => (c, some (.halted name))
  | none =>
    if !c.ready then (c, some .notReset)
    else
      match c.missing? b with
      | some name => ({ c with fault := some name }, some (.registerMissing name))
      | none =>
        match c.arch.table.decode? (c.memory.read c.pc) with
        | none => (c, some (.opcodeUnknown c.pc (c.memory.read c.pc)))
        | some e => c.perform b e

/-- What there is to tell about a reset. -/
def resetReport (entry : UInt64) : Text := ("cpu: reset to $" : Text) ++ Text.hexUpper 4 entry.toNat

/-- What there is to tell about the next instruction, if there is one. -/
def stepReport? (b : Behaviour) (c : Cpu) : Option Text :=
  if c.fault.isSome || !c.ready || (c.missing? b).isSome then none
  else
    (c.arch.table.decode? (c.memory.read c.pc)).map fun e =>
      let next := c.pc + e.mode.length.toUInt64
      ("cpu: $" : Text) ++ Text.hexUpper 4 c.pc.toNat ++ (" " : Text) ++ e.mnemonic ++ (" " : Text)
        ++ e.mode.render (c.operandWord c.pc e.mode) next c.arch.addressMask

end Cpu

end EightBit
