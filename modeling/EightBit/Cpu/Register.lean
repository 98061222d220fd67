import EightBit.Isa.Architecture

/-!
# Registers

A register has a definition and a value that fits its width. The bits of a status register have names.

* `Register.set`: the value, cut to the width.
* `RegisterFile.find?`, `RegisterFile.update`: the first register with a name, in any letter case.
-/

namespace EightBit

/-- A register with its value. -/
structure Register where
  /-- The definition. -/
  definition : RegisterDef
  /-- The value. -/
  value : UInt64 := 0
deriving DecidableEq, Repr

namespace Register

/-- The bits of the register. -/
def mask (r : Register) : UInt64 := Word.mask r.definition.width

/-- Whether a name is one of the register's names. -/
def isNamed (r : Register) (name : Text) : Bool := r.definition.isNamed name

/-- The register with another value, cut to its width. -/
def set (r : Register) (value : UInt64) : Register := { r with value := value &&& r.mask }

/-- The place of the bit with a name. -/
def bit? (r : Register) (flag : Text) : Option Nat :=
  r.definition.flags.findIdx? fun name => !name.isEmpty && name.equalFold flag

/-- Whether the bit at a place is set. -/
def isSet (r : Register) (bit : Nat) : Bool := r.value &&& Word.bit bit != 0

/-- The register with the bit at a place set or cleared. -/
def setBit (r : Register) (bit : Nat) (on : Bool) : Register :=
  { r with value := if on then r.value ||| Word.bit bit else r.value &&& ~~~Word.bit bit }

/-- Whether the bit with a name is set; `none` if there is no such bit. -/
def flag? (r : Register) (flag : Text) : Option Bool := (r.bit? flag).map r.isSet

/-- The register with a named bit set or cleared; unchanged if there is no such bit. -/
def setFlag (r : Register) (flag : Text) (on : Bool) : Register :=
  match r.bit? flag with
  | some bit => r.setBit bit on
  | none => r

/-- The letters of the named bits from the highest on: capitals if set, a hyphen for an unnamed bit. -/
def flagLetters (r : Register) : Text :=
  (r.definition.flags.zipIdx.reverse.map fun (name, bit) =>
    if name.isEmpty then ("-" : Text) else if r.isSet bit then name.toUpper else name.toLower).flatten

/-- The line that shows a register: its name, its value, and the bits that have names. -/
def line (r : Register) : Text :=
  let digits := (r.definition.width + 3) / 4
  r.definition.name.padLeft 5 ++ (": " : Text) ++ Text.hexUpper digits r.value.toNat
    ++ (if r.definition.flags.isEmpty then [] else (" " : Text) ++ r.flagLetters) ++ ("\n" : Text)

end Register

/-- The registers of a processor. -/
abbrev RegisterFile := List Register

namespace RegisterFile

/-- Registers that are all zero. -/
def ofDefinitions (defs : List RegisterDef) : RegisterFile := defs.map fun d => { definition := d }

/-- The first register with a name. -/
def find? (rs : RegisterFile) (name : Text) : Option Register := List.find? (·.isNamed name) rs

/-- The value of the first register with a name; zero if there is none. -/
def get (rs : RegisterFile) (name : Text) : UInt64 := ((rs.find? name).map Register.value).getD 0

/-- The registers with the first one that fulfils a condition changed. -/
def updateWhere (p : Register → Bool) (f : Register → Register) : RegisterFile → RegisterFile
  | [] => []
  | r :: rest => if p r then f r :: rest else r :: updateWhere p f rest

/-- The registers with the first one of a name changed. -/
def update (name : Text) (f : Register → Register) (rs : RegisterFile) : RegisterFile :=
  rs.updateWhere (·.isNamed name) f

/-- Whether a register has named bits. -/
def isStatus (r : Register) : Bool := !r.definition.flags.isEmpty

/-- The first register with named bits. -/
def status? (rs : RegisterFile) : Option Register := List.find? isStatus rs

/-- The registers, all zero. -/
def clear (rs : RegisterFile) : RegisterFile := rs.map fun r => { r with value := 0 }

end RegisterFile

end EightBit
