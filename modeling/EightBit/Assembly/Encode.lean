import EightBit.Assembly.Error
import EightBit.Listing
import EightBit.Memory

/-!
# Encoding

The bytes of instructions and data, once all addresses are known.

* `Encoding.instruction`, `Encoding.data`: the row of a statement.
* `Encoding.emit?`: what a statement contributes to a program.
-/

namespace EightBit

/-- What statements are encoded with. -/
structure Encoding where
  /-- The target. -/
  arch : Architecture
  /-- Whether branches out of range are cut off rather than refused. -/
  wrapBranches : Bool
  /-- The labels with their addresses. -/
  labels : LabelTable

/-- What a statement contributes to a program. -/
structure Emission where
  /-- The row of the statement. -/
  row : Row
  /-- The mark of its bytes. -/
  mark : Mark
deriving DecidableEq, Repr

namespace Encoding

/-- Whether a value is representable in `size` bytes, signed or unsigned. -/
def fits (value : Int) (size : Nat) : Bool :=
  8 ≤ size || (-Int.pow 2 (8 * size - 1) ≤ value && value < Int.pow 2 (8 * size))

/-- The value of an operand: a constant, the address of its label, or, where data may be symbolic, a
constant of the architecture. -/
def value (enc : Encoding) (op : Operand) : Except EncodeError UInt64 :=
  if op.isWord then
    match op.ref with
    | none =>
      if enc.arch.symbolicData then
        match enc.arch.equates.lookup op.token.text with
        | some v => .ok v
        | none => .error .symbolUnknown
      else .error .labelUnresolved
    | some id =>
      match (enc.labels.get? id).bind Label.address with
      | some addr => .ok addr
      | none => .error .labelUnresolved
  else
    match op.token.valueIn enc.arch.dialect with
    | .ok v => .ok (UInt64.ofInt v)
    | .error e => .error (.value e)

/-- The operand bits of an instruction for a value; `next` is the address of the next instruction. -/
def operandBits (enc : Encoding) (mode : Mode) (next value : UInt64) : Except EncodeError UInt64 :=
  let mask := Word.mask (8 * mode.operandSize)
  if !mode.relative then .ok (value &&& mask)
  else
    -- The distance counts from the instruction after the branch.
    let distance := Word.toInt (value - next)
    let limit := Int.pow 2 (8 * mode.operandSize - 1)
    if !enc.wrapBranches && (distance < -limit || limit ≤ distance) then .error .branchRange
    else .ok ((value - next) &&& mask)

/-- The row of an instruction at an address. -/
def instruction (enc : Encoding) (addr : UInt64) (mnemonic : Text) (mode : Mode)
    (operand : Option Operand) : Except EncodeError Row := do
  let some entry := enc.arch.table.lookup? mnemonic mode | throw .opcodeMissing
  let mode := entry.mode
  let next := addr + mode.length.toUInt64
  let raw ←
    if mode.operand.isSome ∧ 0 < mode.operandSize then
      match operand with
      | none => throw .operandMissing
      | some op => do enc.operandBits mode next (← enc.value op)
    else pure 0
  return {
    address := addr
    mnemonic := entry.mnemonic
    mode := some mode
    operand := mode.render raw next enc.arch.addressMask
    bytes := entry.opcode :: enc.arch.encode raw mode.operandSize }

/-- The bytes of one value of a data directive: those of each byte of a string, or of a number. -/
def valueBytes (enc : Encoding) (size : Nat) (op : Operand) : Except EncodeError (List UInt8) :=
  if op.token.kind = .string then
    match op.token.unquote? with
    | some text => .ok (text.flatMap fun b => enc.arch.encode b.toUInt64 size)
    | none => .error (.notString op.token.text)
  else do
    let v ← enc.value op
    if fits (Word.toInt v) size then return enc.arch.encode v size else throw .valueRange

/-- The bytes of the values of a data directive. -/
def valuesBytes (enc : Encoding) (size : Nat) : List Operand → Except EncodeError (List UInt8)
  | [] => .ok []
  | op :: rest => do
    let first ← enc.valueBytes size op
    let more ← enc.valuesBytes size rest
    return first ++ more

/-- The row of data at an address. -/
def data (enc : Encoding) (addr : UInt64) (directive : DataDirective) (values : List Operand) :
    Except EncodeError Row := do
  let bytes ← enc.valuesBytes directive.size values
  return {
    address := addr
    mnemonic := directive.name
    operand := Text.joinWith ", " (values.map fun op => op.token.text)
    bytes }

/-- What a statement contributes; none if its kind has no bytes. -/
def emit? (enc : Encoding) (n : Node) : Option (Except AssemblyError Emission) :=
  let finish (mark : Mark) (row : Except EncodeError Row) : Except AssemblyError Emission :=
    match row with
    | .ok row => .ok ⟨{ row with loc := n.loc, labels := enc.labels.namesAt n.addr }, mark⟩
    | .error e => .error (.at n e)
  match n.element with
  | .instruction mnemonic mode operand =>
    some (finish .program (enc.instruction n.addr mnemonic mode operand))
  | .data directive values => some (finish .data (enc.data n.addr directive values))
  | .reserve directive _ =>
    some (finish .editable (.ok
      { address := n.addr, mnemonic := directive.name, bytes := List.replicate n.size 0 }))
  | _ => none

end Encoding

end EightBit
