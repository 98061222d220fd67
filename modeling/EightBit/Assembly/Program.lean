import EightBit.Assembly.Encode
import EightBit.Assembly.Layout

/-!
# Programs

An assembled program: its memory, the rows of its listing, its source map and its bounds.

* `Program.assemble`: the program of a tree, with the errors of statements that could not be encoded.
-/

namespace EightBit

/-- An assembled program. -/
structure Program where
  /-- The target. -/
  arch : Architecture
  /-- The memory with the bytes of the program. -/
  memory : Memory
  /-- The rows of the listing. -/
  rows : Listing
  /-- Where the byte at each address came from. -/
  sourceMap : SourceMap
  /-- The lowest address. -/
  start : UInt64
  /-- The address after the highest byte. -/
  stop : UInt64
  /-- The address of the first instruction, or the lowest address. -/
  entry : UInt64

namespace Program

/-- The bytes between the lowest and the highest address. -/
def binary (p : Program) : List UInt8 := p.memory.slice p.start p.stop

/-- The bytes of instructions with their addresses. -/
def codes (p : Program) : List (UInt64 × UInt8) :=
  (p.rows.filter fun r => r.mode.isSome).flatMap fun r =>
    r.bytes.zipIdx.map fun (b, n) => (r.address + n.toUInt64, b)

/-- The bounds of some rows: the lowest address and the highest address after a row. -/
def bounds (rows : Listing) : UInt64 × UInt64 :=
  match rows with
  | [] => (0, 0)
  | first :: rest =>
    rest.foldl (fun (lo, hi) r => (min lo r.address, max hi r.stop)) (first.address, first.stop)

/-- The program that emissions make up over a memory. An emission without bytes has no row. -/
def ofEmissions (arch : Architecture) (memory : Memory) (es : List Emission) : Program :=
  let rows := (es.map Emission.row).filter fun r => !r.bytes.isEmpty
  let (start, stop) := bounds rows
  { arch, rows, start, stop
    memory := es.foldl (fun m e => m.load e.row.address e.row.bytes e.mark) memory
    sourceMap := .ofListing rows
    entry := ((es.find? fun e => e.mark == .program).map fun e => e.row.address).getD start }

end Program

/-- The outcome of assembling a tree. -/
structure Assembled where
  /-- The tree with its addresses. -/
  tree : Tree
  /-- The program, whether or not there were errors. -/
  program : Program
  /-- What went wrong. -/
  errors : List AssemblyError

/-- The program of a tree over a memory. A statement that cannot be encoded is left out. -/
def Tree.assemble (arch : Architecture) (origin : UInt64) (wrapBranches : Bool) (memory : Memory)
    (t : Tree) : Assembled :=
  let (tree, misplaced) := t.layout arch origin
  let emitted := tree.nodes.filterMap ({ arch, wrapBranches, labels := tree.labels : Encoding }).emit?
  let program := Program.ofEmissions arch memory (emitted.filterMap Except.toOption)
  let failed := emitted.filterMap fun
    | .ok _ => none
    | .error e => some e
  let errors := misplaced ++ failed
  { tree := { tree with assembled := errors.isEmpty }, program, errors }

end EightBit
