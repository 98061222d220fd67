import EightBit.Assembly.Error
import EightBit.Tree.Basic

/-!
# Layout

Gives every statement and label its address. A statement follows the one before it; aligned data is
moved up to a multiple of its size, and the labels directly in front of it move along. An address that
was given before is kept.

* `Layout.step`: the next statement.
* `Tree.layout`: a tree with its addresses.
-/

namespace EightBit

/-- The layout so far. -/
structure Layout where
  /-- The address of the next statement. -/
  next : UInt64
  /-- The labels. -/
  labels : LabelTable
  /-- The statements, the last one first, up to the labels that may still move. -/
  placed : List Node := []
  /-- The labels directly in front of the next statement, the last one first. -/
  pending : List Node := []
  /-- What went wrong. -/
  errors : List AssemblyError := []

namespace Layout

/-- The least multiple of a size that is not below an address. -/
def alignUp (addr size : UInt64) : UInt64 := (addr + size - 1) / size * size

/-- The label table after a declaration has moved to an address; a label that was placed elsewhere
stays. -/
def moveLabel (labels : LabelTable) (n : Node) (addr : UInt64) : LabelTable :=
  match n.element with
  | .label id =>
    labels.modify id fun l => if l.address = n.address then { l with address := some addr } else l
  | _ => labels

/-- The layout with the next address moved up to a multiple of a size, and the labels in front of it. -/
def align (s : Layout) (size : UInt64) : Layout :=
  let addr := alignUp s.next size
  { s with
    next := addr
    labels := s.pending.foldl (fun labels n => moveLabel labels n addr) s.labels
    pending := s.pending.map fun n => { n with address := some addr } }

/-- The layout with the next address chosen by a statement. -/
def advance (arch : Architecture) (s : Layout) (n : Node) : Layout :=
  match n.element with
  | .setPc value =>
    match value.valueIn arch.dialect with
    | .ok v => { s with next := UInt64.ofInt v &&& arch.addressMask }
    | .error e => { s with errors := s.errors ++ [.at n (.value e)] }
  | e =>
    match e.alignment? with
    | some size => s.align size
    | none => s

/-- The layout after one more statement. -/
def step (arch : Architecture) (s : Layout) (n : Node) : Layout :=
  let s := s.advance arch n
  let n := n.place s.next
  let next := (n.addr + n.size.toUInt64) &&& arch.addressMask
  match n.element with
  -- A label may still move, together with aligned data that follows it.
  | .label id => { s with next, labels := s.labels.place id n.addr, pending := n :: s.pending }
  | _ => { s with next, placed := n :: (s.pending ++ s.placed), pending := [] }

/-- The layout of statements from an address on. -/
def run (arch : Architecture) (origin : UInt64) (labels : LabelTable) (nodes : List Node) : Layout :=
  nodes.foldl (step arch) { next := origin &&& arch.addressMask, labels }

/-- The statements with their addresses, in order. -/
def nodes (s : Layout) : List Node := (s.pending ++ s.placed).reverse

end Layout

/-- Sections of the same lengths as the given ones, with other nodes. -/
def Section.refill : List Section → List Node → List Section
  | [], _ => []
  | s :: rest, nodes =>
    { s with nodes := nodes.take s.nodes.length } :: refill rest (nodes.drop s.nodes.length)

/-- The tree with the addresses of its statements and labels, and what went wrong. -/
def Tree.layout (arch : Architecture) (origin : UInt64) (t : Tree) : Tree × List AssemblyError :=
  let s := Layout.run arch origin t.labels t.nodes
  ({ t with sections := Section.refill t.sections s.nodes, labels := s.labels }, s.errors)

end EightBit
