import EightBit.Isa.Architecture
import EightBit.Mos6502.Operation

/-!
# The 6502 as a target

Registers, data directives and memory layout of the 6502.
-/

namespace EightBit.Mos6502

/-- The first address of the stack page. -/
def stackBase : UInt64 := 0x0100

/-- Where the address of the non-maskable interrupt routine is found. -/
def vectorNmi : UInt64 := 0xFFFA

/-- Where the address of the reset routine is found. -/
def vectorReset : UInt64 := 0xFFFC

/-- Where the address of the interrupt routine is found, which `BRK` enters too. -/
def vectorIrq : UInt64 := 0xFFFE

/-- The registers; `P` holds the status flags. -/
def registers : List RegisterDef := [
  { name := "A", aliases := ["AC"], width := 8 },
  { name := "X", width := 8 },
  { name := "Y", width := 8 },
  { name := "SP", aliases := ["S"], width := 8 },
  { name := "PC", width := 16 },
  { name := "P", aliases := ["SR"], width := 8
    flags := ["C", "Z", "I", "D", "B", "", "V", "N"] }]

/-- The data directives. Only `.half` and `.long` are aligned. -/
def data : List DataDirective := [
  { name := ".byte", size := 1 },
  { name := ".word", size := 2 },
  { name := ".dword", size := 4 },
  { name := ".half", size := 2, aligned := true },
  { name := ".long", size := 4, aligned := true }]

/-- The definition of the 6502. -/
def architecture : Architecture where
  name := "6502"
  dialect := dialect
  modes := Addressing.modes
  table := table
  data := data
  registers := registers
  pc := "PC"
  addressWidth := 16
  byteOrder := some .little
  origin := 0x0200
  equates := [("STACK_BASE", stackBase), ("VECTOR_NMI", vectorNmi),
    ("VECTOR_RESET", vectorReset), ("VECTOR_IRQ", vectorIrq)]

end EightBit.Mos6502
