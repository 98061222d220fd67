import EightBit.Isa.Architecture
import EightBit.Listing
import EightBit.Memory

/-!
# Disassembly

Decodes the instructions in a range of memory one after the other. The walk ends at the end of the
range, at a byte that is no opcode, or at an instruction that runs past the end.

* `Disassembly.run`: the rows of a range, and what ended the walk.
-/

namespace EightBit

/-- Why a byte could not be decoded. -/
inductive DecodeCause
  | opcodeUnknown
  | truncated
deriving DecidableEq, Repr

/-- The text of a cause. -/
def DecodeCause.message : DecodeCause → Text
  | opcodeUnknown => "unknown opcode"
  | truncated => "instruction runs past end"

/-- Where a walk ended early, and why. -/
structure DecodeError where
  /-- The address of the byte that could not be decoded. -/
  address : UInt64
  /-- The byte. -/
  opcode : UInt8
  /-- What is wrong. -/
  cause : DecodeCause
deriving DecidableEq, Repr

/-- Address, byte and cause. -/
def DecodeError.message (e : DecodeError) : Text :=
  ("$" : Text) ++ Text.hexUpper 4 e.address.toNat ++ (": opcode $" : Text)
    ++ Text.hexUpper 2 e.opcode.toNat ++ (": " : Text) ++ e.cause.message

/-- How a walk ended. -/
inductive WalkEnd
  /-- At the end of the range. -/
  | reached
  /-- At a byte that could not be decoded. -/
  | failed (e : DecodeError)
  /-- At an instruction that runs over the last address. -/
  | overflowed (address : UInt64)
deriving DecidableEq, Repr

/-- The rows of a range and how the walk ended. -/
structure Disassembly where
  /-- The rows. -/
  rows : Listing
  /-- How the walk ended. -/
  ending : WalkEnd
deriving DecidableEq, Repr

namespace Disassembly

/-- The row of an instruction in memory. -/
def row (arch : Architecture) (m : Memory) (labels : UInt64 → List Text) (addr : UInt64) (e : Entry) :
    Row :=
  let next := addr + e.mode.length.toUInt64
  let code := m.slice addr next
  { address := addr
    labels := labels addr
    mnemonic := e.mnemonic
    mode := some e.mode
    operand := e.mode.render (arch.decode (code.drop 1)) (next &&& arch.addressMask) arch.addressMask
    bytes := code }

/-- The instructions from an address up to another one, at most as many as there is fuel for. -/
def walk (arch : Architecture) (m : Memory) (labels : UInt64 → List Text) (stop : UInt64) :
    Nat → UInt64 → Disassembly
  | 0, _ => ⟨[], .reached⟩
  | fuel + 1, addr =>
    if stop ≤ addr then ⟨[], .reached⟩
    else
      let opcode := m.read addr
      match arch.table.decode? opcode with
      | none => ⟨[], .failed ⟨addr, opcode, .opcodeUnknown⟩⟩
      | some e =>
        let next := addr + e.mode.length.toUInt64
        if stop < next then ⟨[], .failed ⟨addr, opcode, .truncated⟩⟩
        -- Nothing follows an instruction that ends at the highest address.
        else if next ≤ addr then ⟨[], .overflowed addr⟩
        else
          let rest := walk arch m labels stop fuel next
          { rest with rows := row arch m labels addr e :: rest.rows }

/-- The instructions of a range. Every instruction takes at least one byte, so that there are no more of
them than bytes. -/
def run (arch : Architecture) (m : Memory) (labels : UInt64 → List Text) (start stop : UInt64) :
    Disassembly :=
  walk arch m labels stop (stop.toNat - start.toNat) start

/-- What there is to tell about the rows. -/
def report (d : Disassembly) : List Text :=
  d.rows.map fun r =>
    ("disasm: $" : Text) ++ Text.hexUpper 4 r.address.toNat ++ (": " : Text) ++ r.text

end Disassembly

end EightBit
