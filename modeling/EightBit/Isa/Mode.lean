import EightBit.Isa.Word
import EightBit.Pattern
import EightBit.Text.Template

/-!
# Addressing modes

An addressing mode says how the operand of an instruction is written, how long the instruction is, and
how its operand is shown. Two modes are the same mode if all of this agrees.

* `Mode.match?`: whether operand tokens are written in the mode, and the token that holds the operand.
* `Mode.render`: the text of an operand value.
-/

namespace EightBit

/-- An addressing mode. -/
structure Mode where
  /-- A short name, such as `imm`. -/
  name : Text
  /-- The ways to write the operand, in order of preference. -/
  patterns : List Pattern := []
  /-- The component of the pattern that holds the operand; none if there is no operand. -/
  operand : Option Nat := none
  /-- The number of bytes of the instruction, opcode included. -/
  length : Nat := 1
  /-- Whether the operand is a signed distance from the next instruction. -/
  relative : Bool := false
  /-- How the operand is shown, such as `#$%02X`. -/
  format : Text := []
deriving DecidableEq, Repr

namespace Mode

/-- The number of operand bytes after the opcode. -/
def operandSize (m : Mode) : Nat := m.length - 1

/-- The match of operand tokens as a whole: `none` if they are not written in the mode, else the token
that holds the operand, if the mode has one. -/
def match? (m : Mode) (tokens : List Token) : Option (Option Token) :=
  (m.patterns.findSome? (·.matchExact tokens)).map fun r => m.operand.bind (r.tokens[·]?)

/-- The text of an operand value. In a relative mode the value is a distance, and the address that it
leads to from `next` is shown, cut to the bits of `mask`. -/
def render (m : Mode) (value next mask : UInt64) : Text :=
  if m.operand.isNone || !m.format.contains 0x25 then m.format
  else
    let shown :=
      if m.relative then (next + UInt64.ofInt (Word.signExtend value m.operandSize)) &&& mask
      else value
    Template.render [] m.format [.number shown.toNat]

end Mode

end EightBit
