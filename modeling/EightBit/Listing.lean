import EightBit.Isa.Mode
import EightBit.Token.Basic
import Std.Data.TreeMap

/-!
# Listings

What stands at which address, one row for each instruction or data element, and the map from addresses
back to source lines.

* `Row`: an element with its address, labels and bytes; `Row.line` is its line of text.
* `Listing`: rows in order; `Listing.find?` is the row that covers an address.
* `SourceMap`: where the byte at each address came from.
-/

namespace EightBit

/-- An instruction or data element of a listing. -/
structure Row where
  /-- The address of the first byte. -/
  address : UInt64
  /-- The labels at the address. -/
  labels : List Text := []
  /-- The mnemonic or directive. -/
  mnemonic : Text := []
  /-- The addressing mode; none for data. -/
  mode : Option Mode := none
  /-- The operand. -/
  operand : Text := []
  /-- The bytes. -/
  bytes : List UInt8 := []
  /-- Where the element stands in its source. -/
  loc : Location := {}
deriving DecidableEq, Repr

namespace Row

/-- The mnemonic and the operand. -/
def text (r : Row) : Text :=
  if r.operand.isEmpty then r.mnemonic else r.mnemonic ++ (" " : Text) ++ r.operand

/-- The address after the last byte. -/
def stop (r : Row) : UInt64 := r.address + r.bytes.length.toUInt64

/-- The rows that stand for the second and further bytes of an element in a transcript. -/
def fillers (r : Row) : List Row :=
  (r.bytes.drop 1).zipIdx.map fun (b, n) =>
    { address := r.address + (n + 1).toUInt64, bytes := [b], loc := r.loc }

/-- The place of an address in a row, which covers at least one byte. -/
def index? (r : Row) (addr : UInt64) : Option Nat :=
  let size := (max r.bytes.length 1).toUInt64
  if r.address ≤ addr ∧ addr < r.address + size then some (addr - r.address).toNat else none

/-- The line of a row: address, bytes, labels, mnemonic and operand. -/
def line (r : Row) : Text :=
  let bytes := Text.joinWith " " (r.bytes.map fun b => Text.hexUpper 2 b.toNat)
  let labels : Text := if r.labels.isEmpty then [] else Text.joinWith ":, " r.labels ++ (":" : Text)
  Text.hexUpper 4 r.address.toNat ++ ("  " : Text) ++ bytes.padRight 9 ++ ("  " : Text)
    ++ labels.padRight 16 ++ (" " : Text) ++ r.text ++ ("\n" : Text)

end Row

/-- The rows of a program. -/
abbrev Listing := List Row

namespace Listing

/-- The first row that covers an address, and the place of the address in it. -/
def find? (rows : Listing) (addr : UInt64) : Option (Row × Nat) :=
  rows.findSome? fun r => (r.index? addr).map fun n => (r, n)

/-- Every row followed by its fillers. -/
def transcript (rows : Listing) : List Row := rows.flatMap fun r => r :: r.fillers

/-- The rows as text, one line each. -/
def text (rows : Listing) : Text := rows.flatMap Row.line

/-- How many bytes of the text a medium takes that has room for `room` bytes, and whether it takes all of
them. -/
def written (rows : Listing) (room : Nat) : Nat × Bool :=
  (min room rows.text.length, rows.text.length ≤ room)

end Listing

/-- Where the byte at each address came from. -/
abbrev SourceMap := Std.TreeMap UInt64 Location

namespace SourceMap

/-- The map with the bytes of a row added. -/
def addRow (m : SourceMap) (r : Row) : SourceMap :=
  (List.range r.bytes.length).foldl (fun m n => m.insert (r.address + n.toUInt64) r.loc) m

/-- The map of all rows; later rows take precedence. -/
def ofListing (rows : Listing) : SourceMap := rows.foldl addRow ∅

/-- The addresses of the bytes that came from a source line, in ascending order. -/
def addresses (m : SourceMap) (file : Text) (line : Int) : List UInt64 :=
  (m.toList.filter fun (_, loc) => loc.file == file && loc.line == line).map Prod.fst

/-- The lowest address and the address after the highest one. -/
def span? (m : SourceMap) : Option (UInt64 × UInt64) := do
  let first ← m.minKey?
  let last ← m.maxKey?
  return (first, last + 1)

end SourceMap

end EightBit
