import EightBit.Cpu.Stack
import EightBit.Cpu.Step
import EightBit.Mos6502.Architecture

/-!
# Execution on the 6502

What the addressing modes and instructions of the 6502 do. Decimal mode can be chosen, but addition and
subtraction are always binary.

* `Mos6502.resolve`: the operand of an addressing mode.
* `Mos6502.Operation.run`: the effect of an instruction.
* `Mos6502.behaviour`: the 6502 as the behaviour of a processor.
-/

namespace EightBit.Mos6502

namespace Reg

/-- The accumulator. -/
def a : Text := "A"

/-- The first index register. -/
def x : Text := "X"

/-- The second index register. -/
def y : Text := "Y"

/-- The stack pointer. -/
def sp : Text := "SP"

/-- The program counter. -/
def pc : Text := "PC"

/-- The status register. -/
def p : Text := "P"

end Reg

/-- A bit of the status register that instructions use. -/
inductive Flag
  | carry
  | zero
  | interrupt
  | decimal
  | overflow
  | negative
deriving DecidableEq, Repr

/-- The letter of a status bit. -/
def Flag.name : Flag → Text
  | carry => "C"
  | zero => "Z"
  | interrupt => "I"
  | decimal => "D"
  | overflow => "V"
  | negative => "N"

/-- The bit that tells a pushed status of `BRK` from that of an interrupt; the register lacks it. -/
def breakBit : UInt64 := 0x10

/-- The bit that is always set. -/
def unusedBit : UInt64 := 0x20

/-- The stack in page one. -/
def stack : Stack := ⟨Reg.sp, stackBase⟩

/-- Whether a status bit is set; a bit that the register lacks is not. -/
def flag (c : Cpu) (f : Flag) : Bool :=
  ((c.registers.find? Reg.p).bind (·.flag? f.name)).getD false

/-- The processor with a status bit set or cleared. -/
def setFlag (c : Cpu) (f : Flag) (on : Bool) : Cpu :=
  { c with registers := c.registers.update Reg.p (·.setFlag f.name on) }

/-- The processor with the bits for zero and sign set by the low byte of a result. -/
def setZN (c : Cpu) (result : UInt64) : Cpu :=
  setFlag (setFlag c .zero (result &&& 0xFF == 0)) .negative (result &&& 0x80 != 0)

/-- The processor with a register set, and with the bits for zero and sign set by it. -/
def setZNReg (c : Cpu) (reg : Text) (value : UInt64) : Cpu :=
  let c := c.set reg value
  setZN c (c.get reg)

/-- The address stored at a zero page address, whose second byte stands in the zero page too. -/
def pointer (m : Memory) (zp : UInt64) : UInt64 :=
  ((m.read ((zp + 1) &&& 0xFF)).toUInt64 <<< 8) ||| (m.read (zp &&& 0xFF)).toUInt64

/-- The address stored at an address. The address of its second byte does not carry into the next
page. -/
def indirect (m : Memory) (addr : UInt64) : UInt64 :=
  ((m.read ((addr &&& 0xFF00) ||| ((addr + 1) &&& 0xFF))).toUInt64 <<< 8) ||| (m.read addr).toUInt64

/-- An operand in memory. -/
def inMemory (c : Cpu) (raw addr : UInt64) : Resolved :=
  let addr := addr &&& 0xFFFF
  { raw, value := some (c.memory.read addr).toUInt64, address := some addr }

/-- The operand of an instruction in an addressing mode at an address. -/
def Addressing.resolve (c : Cpu) (raw pc : UInt64) : Addressing → Resolved
  | imp => { raw }
  | acc => { raw, value := some (c.get Reg.a) }
  | imm => { raw, value := some (raw &&& 0xFF) }
  | zpg => inMemory c raw (raw &&& 0xFF)
  | zpx => inMemory c raw ((raw + c.get Reg.x) &&& 0xFF)
  | zpy => inMemory c raw ((raw + c.get Reg.y) &&& 0xFF)
  | abs => inMemory c raw raw
  | abx => inMemory c raw (raw + c.get Reg.x)
  | aby => inMemory c raw (raw + c.get Reg.y)
  | ind => { raw, address := some (indirect c.memory raw) }
  | idx => inMemory c raw (pointer c.memory (raw + c.get Reg.x))
  | idy => inMemory c raw (pointer c.memory raw + c.get Reg.y)
  | rel =>
    let next := pc + rel.length.toUInt64
    { raw, address := some ((next + UInt64.ofInt (Word.signExtend raw 1)) &&& 0xFFFF) }

/-- The operand of an instruction; a mode of another processor yields nothing. -/
def resolve (c : Cpu) (mode : Mode) (raw pc : UInt64) : Resolved :=
  match Addressing.ofMode? mode with
  | some a => a.resolve c raw pc
  | none => { raw }

/-- The circumstances of an instruction. -/
structure Instruction where
  /-- The addressing mode. -/
  mode : Mode
  /-- The operand. -/
  operand : Resolved
  /-- The address of the instruction. -/
  pc : UInt64

/-- An instruction that is followed by the next one. -/
def proceed (c : Cpu) : Effect := ⟨c, .ok none⟩

/-- An instruction that chooses the next one. -/
def jump (c : Cpu) (addr : UInt64) : Effect := ⟨c, .ok (some (addr &&& 0xFFFF))⟩

/-- An instruction that fails. -/
def fail (c : Cpu) (e : CpuError) : Effect := ⟨c, .error e⟩

namespace Instruction

/-- The effect that depends on the value of the operand. -/
def withValue (i : Instruction) (c : Cpu) (f : UInt64 → Effect) : Effect :=
  match i.operand.value with
  | some v => f v
  | none => fail c .operandMissing

/-- The effect that depends on the address of the operand. -/
def withTarget (i : Instruction) (c : Cpu) (f : UInt64 → Effect) : Effect :=
  match i.operand.address with
  | some addr => f addr
  | none => fail c .addressMissing

/-- Writes a byte to the address of the operand. -/
def store (i : Instruction) (c : Cpu) (value : UInt64) : Effect :=
  i.withTarget c fun addr => proceed { c with memory := c.memory.write addr value.toUInt8 }

/-- Writes a byte to where the operand came from. -/
def writeBack (i : Instruction) (c : Cpu) (value : UInt64) : Effect :=
  if i.mode = Addressing.acc.mode then proceed (c.set Reg.a value) else i.store c value

/-- Sets a register to the operand. -/
def load (i : Instruction) (c : Cpu) (reg : Text) : Effect :=
  i.withValue c fun v => proceed (setZNReg c reg v)

/-- Sets the accumulator to a function of itself and the operand. -/
def logic (i : Instruction) (c : Cpu) (f : UInt64 → UInt64 → UInt64) : Effect :=
  i.withValue c fun v => proceed (setZNReg c Reg.a (f (c.get Reg.a) v))

/-- The processor after a value and the carry were added to the accumulator. -/
def addTo (c : Cpu) (v : UInt64) : Cpu :=
  let a := c.get Reg.a
  let sum := a + v + if flag c .carry then 1 else 0
  let c := setFlag c .carry (0xFF < sum)
  let c := setFlag c .overflow (~~~(a ^^^ v) &&& (a ^^^ sum) &&& 0x80 != 0)
  setZNReg c Reg.a sum

/-- Compares a register with the operand. -/
def compare (i : Instruction) (c : Cpu) (reg : Text) : Effect :=
  i.withValue c fun v =>
    let c := setFlag c .carry (v ≤ c.get reg)
    proceed (setZN c (c.get reg - v))

/-- Replaces the operand by a function of it and the carry that yields a new carry. -/
def shift (i : Instruction) (c : Cpu) (f : UInt64 → Bool → UInt64 × Bool) : Effect :=
  i.withValue c fun v =>
    let (result, carry) := f v (flag c .carry)
    i.writeBack (setZN (setFlag c .carry carry) result) (result &&& 0xFF)

/-- Adds a number to the operand in memory. -/
def step (i : Instruction) (c : Cpu) (delta : UInt64) : Effect :=
  i.withValue c fun v =>
    let result := (v + delta) &&& 0xFF
    i.store (setZN c result) result

/-- Goes to the address of the operand if a condition holds. -/
def branch (i : Instruction) (c : Cpu) (taken : Bool) : Effect :=
  if taken then i.withTarget c (jump c) else jump c (i.pc + i.mode.length.toUInt64)

end Instruction

/-- Sets a register to the value of another one. -/
def transfer (c : Cpu) (source target : Text) : Effect := proceed (setZNReg c target (c.get source))

/-- Adds a number to a register. -/
def increment (c : Cpu) (reg : Text) (delta : UInt64) : Effect :=
  proceed (setZNReg c reg (c.get reg + delta))

/-- The effect of something that may fail without changing the processor. -/
def attempt {α : Type} (c : Cpu) (r : Except CpuError α) (f : α → Effect) : Effect :=
  match r with
  | .ok v => f v
  | .error e => fail c e

/-- The status as it is pushed: with the bits that the register lacks. -/
def pushedStatus (c : Cpu) : UInt8 := (c.get Reg.p ||| breakBit ||| unusedBit).toUInt8

/-- The processor after its status was pushed. -/
def pushStatus (c : Cpu) : Except CpuError Cpu := stack.push c (pushedStatus c)

/-- The processor with its status pulled, without the bits that the register lacks. -/
def pullStatus (c : Cpu) : Except CpuError Cpu := do
  let (b, c) ← stack.pull c
  return c.set Reg.p ((b.toUInt64 &&& ~~~breakBit) ||| unusedBit)

/-- The effect of an instruction. -/
def Operation.run (c : Cpu) (i : Instruction) : Operation → Effect
  | adc => i.withValue c fun v => proceed (Instruction.addTo c v)
  | sbc => i.withValue c fun v => proceed (Instruction.addTo c (v ^^^ 0xFF))
  | and => i.logic c (· &&& ·)
  | ora => i.logic c (· ||| ·)
  | eor => i.logic c (· ^^^ ·)
  | asl => i.shift c fun v _ => ((v <<< 1) &&& 0xFF, v &&& 0x80 != 0)
  | lsr => i.shift c fun v _ => (v >>> 1, v &&& 0x01 != 0)
  | rol => i.shift c fun v carry =>
    (((v <<< 1) &&& 0xFF) ||| if carry then 0x01 else 0, v &&& 0x80 != 0)
  | ror => i.shift c fun v carry => ((v >>> 1) ||| if carry then 0x80 else 0, v &&& 0x01 != 0)
  | bit => i.withValue c fun v =>
    let c := setFlag c .zero (c.get Reg.a &&& v == 0)
    let c := setFlag c .negative (v &&& 0x80 != 0)
    proceed (setFlag c .overflow (v &&& 0x40 != 0))
  | bcc => i.branch c !flag c .carry
  | bcs => i.branch c (flag c .carry)
  | bne => i.branch c !flag c .zero
  | beq => i.branch c (flag c .zero)
  | bpl => i.branch c !flag c .negative
  | bmi => i.branch c (flag c .negative)
  | bvc => i.branch c !flag c .overflow
  | bvs => i.branch c (flag c .overflow)
  | brk => attempt c (stack.pushWord c (i.pc + 2) 2) fun c => attempt c (pushStatus c) fun c =>
    let c := setFlag c .interrupt true
    jump c (c.memory.readWord vectorIrq 2)
  | clc => proceed (setFlag c .carry false)
  | cld => proceed (setFlag c .decimal false)
  | cli => proceed (setFlag c .interrupt false)
  | clv => proceed (setFlag c .overflow false)
  | sec => proceed (setFlag c .carry true)
  | sed => proceed (setFlag c .decimal true)
  | sei => proceed (setFlag c .interrupt true)
  | cmp => i.compare c Reg.a
  | cpx => i.compare c Reg.x
  | cpy => i.compare c Reg.y
  | dec => i.step c 0xFF
  | inc => i.step c 1
  | dex => increment c Reg.x 0xFF
  | dey => increment c Reg.y 0xFF
  | inx => increment c Reg.x 1
  | iny => increment c Reg.y 1
  | jmp => i.withTarget c (jump c)
  | jsr => i.withTarget c fun addr => attempt c (stack.pushWord c (i.pc + 2) 2) fun c => jump c addr
  | rts => attempt c (stack.pullWord c 2) fun (ret, c) => jump c (ret + 1)
  | rti => attempt c (pullStatus c) fun c => attempt c (stack.pullWord c 2) fun (ret, c) => jump c ret
  | lda => i.load c Reg.a
  | ldx => i.load c Reg.x
  | ldy => i.load c Reg.y
  | sta => i.store c (c.get Reg.a)
  | stx => i.store c (c.get Reg.x)
  | sty => i.store c (c.get Reg.y)
  | nop => proceed c
  | pha => attempt c (stack.push c (c.get Reg.a).toUInt8) proceed
  | php => attempt c (pushStatus c) proceed
  | pla => attempt c (stack.pull c) fun (b, c) => proceed (setZNReg c Reg.a b.toUInt64)
  | plp => attempt c (pullStatus c) proceed
  | tax => transfer c Reg.a Reg.x
  | tay => transfer c Reg.a Reg.y
  | tsx => transfer c Reg.sp Reg.x
  | txa => transfer c Reg.x Reg.a
  | txs => proceed (c.set Reg.sp (c.get Reg.x))
  | tya => transfer c Reg.y Reg.a

/-- The registers that instructions use. -/
def used : List Text := [Reg.a, Reg.x, Reg.y, Reg.sp, Reg.p]

/-- The effect of the instruction of a table entry. -/
def execute (c : Cpu) (e : Entry) (op : Resolved) (pc : UInt64) : Effect :=
  match Operation.ofName? e.mnemonic with
  | none => fail c (.routineMissing e.mnemonic)
  | some o =>
    match used.find? fun name => (c.registers.find? name).isNone with
    | some name => fail c (.registerMissing name)
    | none => o.run c ⟨e.mode, op, pc⟩

/-- The processor after power-on: an almost full stack, and interrupts off. -/
def powerOn (c : Cpu) : Cpu := setFlag ((c.set Reg.sp 0xFD).set Reg.p unusedBit) .interrupt true

/-- The 6502. -/
def behaviour : Behaviour where
  required := [Reg.a, Reg.x, Reg.y, Reg.sp, Reg.pc, Reg.p]
  powerOn := powerOn
  resolve := resolve
  execute := execute

end EightBit.Mos6502
