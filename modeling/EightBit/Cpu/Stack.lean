import EightBit.Cpu.Basic

/-!
# Stacks in memory

A stack of bytes that grows towards lower addresses, from a base address on, with a register as its
pointer. The pointer wraps around at the width of its register.
-/

namespace EightBit

/-- A stack in memory. -/
structure Stack where
  /-- The register that points below the last byte. -/
  pointer : Text
  /-- The address that belongs to the pointer value zero. -/
  base : UInt64
deriving DecidableEq, Repr

namespace Stack

/-- The processor after a byte was pushed. -/
def push (s : Stack) (c : Cpu) (value : UInt8) : Except CpuError Cpu := do
  let sp ← c.register s.pointer
  let c := { c with memory := c.memory.write (s.base + sp.value) value }
  return c.set s.pointer (sp.value - 1)

/-- The last byte pushed, and the processor without it. -/
def pull (s : Stack) (c : Cpu) : Except CpuError (UInt8 × Cpu) := do
  let sp ← c.register s.pointer
  -- The pointer wraps around at its own width, before it is added to the base.
  let sp := sp.set (sp.value + 1)
  return (c.memory.read (s.base + sp.value), c.set s.pointer sp.value)

/-- The processor after bytes were pushed one after the other. -/
def pushBytes (s : Stack) (c : Cpu) : List UInt8 → Except CpuError Cpu
  | [] => .ok c
  | b :: rest => do
    let c ← s.push c b
    s.pushBytes c rest

/-- The last bytes pushed, the very last one first, and the processor without them. -/
def pullBytes (s : Stack) (c : Cpu) : Nat → Except CpuError (List UInt8 × Cpu)
  | 0 => .ok ([], c)
  | n + 1 => do
    let (b, c) ← s.pull c
    let (rest, c) ← s.pullBytes c n
    return (b :: rest, c)

/-- The processor after a word was pushed, its highest byte first. -/
def pushWord (s : Stack) (c : Cpu) (value : UInt64) (size : Nat) : Except CpuError Cpu :=
  s.pushBytes c (Word.littleBytes size value).reverse

/-- The last word pushed, and the processor without it. -/
def pullWord (s : Stack) (c : Cpu) (size : Nat) : Except CpuError (UInt64 × Cpu) := do
  let (bytes, c) ← s.pullBytes c size
  return (Word.ofLittleBytes bytes, c)

end Stack

end EightBit
