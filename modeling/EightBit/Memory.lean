import EightBit.Isa.Word
import EightBit.Text.Number
import Std.Data.TreeMap

/-!
# Memory

A byte-addressed store whose addresses wrap around at its width. Every byte has a mark that tells where
it came from; execution ignores marks. What was never written is zero and unused.

* `Memory.read`, `Memory.write`, `Memory.markAt`, `Memory.setMark`: single bytes.
* `Memory.readWord`, `Memory.writeWord`: words in the byte order of the memory.
* `Memory.load`: bytes with a mark; `Memory.slice`: the bytes of a range.
-/

namespace EightBit

/-- Where a byte of memory came from. -/
inductive Mark
  | unused
  | program
  | data
  | editable
  /-- A code outside the table, known only by its number. -/
  | other (code : UInt8)
deriving DecidableEq, Repr

namespace Mark

/-- The mark with a given code. -/
def ofCode (code : UInt8) : Mark := [unused, program, data, editable].getD code.toNat (other code)

/-- The name of a mark. -/
def name : Mark → Text
  | unused => "unused"
  | program => "program"
  | data => "data"
  | editable => "editable"
  | other code => ("Mark(" : Text) ++ Text.ofNat code.toNat ++ (")" : Text)

end Mark

/-- A byte-addressed store. -/
structure Memory where
  /-- The width of an address in bits. -/
  width : Nat
  /-- The order of bytes in words. -/
  order : ByteOrder
  /-- The bytes that were written. -/
  bytes : Std.TreeMap UInt64 UInt8 := ∅
  /-- The marks that were set. -/
  marks : Std.TreeMap UInt64 Mark := ∅

namespace Memory

/-- A memory of zero bytes; the lowest byte of a word comes first where no order is given. -/
def empty (width : Nat) (order : Option ByteOrder) : Memory := { width, order := order.getD .little }

/-- The number of bytes. -/
def size (m : Memory) : Nat := Nat.pow 2 m.width

/-- The bits of an address. -/
def mask (m : Memory) : UInt64 := Word.mask m.width

/-- The memory with all bytes zero and all marks unused. -/
def clear (m : Memory) : Memory := { m with bytes := ∅, marks := ∅ }

/-- The byte at an address. -/
def read (m : Memory) (addr : UInt64) : UInt8 := m.bytes.getD (addr &&& m.mask) 0

/-- The memory with a byte written. -/
def write (m : Memory) (addr : UInt64) (value : UInt8) : Memory :=
  { m with bytes := m.bytes.insert (addr &&& m.mask) value }

/-- The mark of the byte at an address. -/
def markAt (m : Memory) (addr : UInt64) : Mark := m.marks.getD (addr &&& m.mask) .unused

/-- The memory with the mark of a byte set. -/
def setMark (m : Memory) (addr : UInt64) (mark : Mark) : Memory :=
  { m with marks := m.marks.insert (addr &&& m.mask) mark }

/-- The `n` bytes from an address on. -/
def readBytes (m : Memory) (addr : UInt64) : Nat → List UInt8
  | 0 => []
  | n + 1 => m.read addr :: m.readBytes (addr + 1) n

/-- The memory with bytes written from an address on. -/
def writeBytes (m : Memory) (addr : UInt64) : List UInt8 → Memory
  | [] => m
  | b :: rest => (m.write addr b).writeBytes (addr + 1) rest

/-- The word of `size` bytes at an address. -/
def readWord (m : Memory) (addr : UInt64) (size : Nat) : UInt64 :=
  m.order.decode (m.readBytes addr size)

/-- The memory with the low `size` bytes of a word written. -/
def writeWord (m : Memory) (addr : UInt64) (size : Nat) (value : UInt64) : Memory :=
  m.writeBytes addr (m.order.encode value size)

/-- The memory with bytes and their marks written from an address on. -/
def load (m : Memory) (addr : UInt64) (bytes : List UInt8) (mark : Mark) : Memory :=
  match bytes with
  | [] => m
  | b :: rest => ((m.write addr b).setMark addr mark).load (addr + 1) rest mark

/-- The bytes from `start` up to `stop`; none if the range is empty. -/
def slice (m : Memory) (start stop : UInt64) : List UInt8 :=
  if start < stop then m.readBytes start (stop - start).toNat else []

/-- Puts a marked byte in front of runs: into the first one if it is adjacent and has the same mark. -/
def extendRuns (addr : UInt64) (mark : Mark) (b : UInt8) :
    List (UInt64 × Mark × List UInt8) → List (UInt64 × Mark × List UInt8)
  | (start, mark', bytes) :: rest =>
    if start = addr + 1 ∧ mark' = mark then (addr, mark, b :: bytes) :: rest
    else (addr, mark, [b]) :: (start, mark', bytes) :: rest
  | [] => [(addr, mark, [b])]

/-- The longest runs of bytes with equal marks, by address, without unused bytes. -/
def markedRuns (m : Memory) : List (UInt64 × Mark × List UInt8) :=
  (m.marks.toList.filter fun (_, mark) => mark != .unused).foldr
    (fun (addr, mark) runs => extendRuns addr mark (m.read addr) runs) []

/-- The bytes in which a memory differs from an earlier one, by address. -/
def changes (before after : Memory) : List (UInt64 × UInt8) :=
  let addrs := before.bytes.keys ++ after.bytes.keys
  let changed := addrs.foldl (fun (found : Std.TreeMap UInt64 UInt8) addr =>
    if before.read addr = after.read addr then found else found.insert addr (after.read addr)) ∅
  changed.toList

@[simp] theorem mask_write (m : Memory) (addr : UInt64) (b : UInt8) : (m.write addr b).mask = m.mask :=
  rfl

/-- A byte written is read back at its own address, and at no other. -/
theorem read_write (m : Memory) (addr other : UInt64) (b : UInt8) :
    (m.write addr b).read other = if addr &&& m.mask = other &&& m.mask then b else m.read other := by
  by_cases h : addr &&& m.mask = other &&& m.mask <;>
    simp_all [read, write, mask, Std.TreeMap.getD_insert]

/-- A mark set is found at its own address, and at no other. -/
theorem markAt_setMark (m : Memory) (addr other : UInt64) (mark : Mark) :
    (m.setMark addr mark).markAt other =
      if addr &&& m.mask = other &&& m.mask then mark else m.markAt other := by
  by_cases h : addr &&& m.mask = other &&& m.mask <;>
    simp_all [markAt, setMark, Memory.mask, Std.TreeMap.getD_insert]

end Memory

end EightBit
