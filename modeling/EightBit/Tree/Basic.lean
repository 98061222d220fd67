import EightBit.Tree.Diagnostic
import EightBit.Tree.Node

/-!
# Syntax trees

A source file after parsing: its sections with their statements, its labels, what the preprocessor
consumed and what was reported.

* `Tree.nodes`: all statements in layout order.
* `Tree.graft`: a tree with the sections and labels of another one appended.
-/

namespace EightBit

/-- What kind of source text the preprocessor consumed. -/
inductive ConsumedKind
  | imported
  | comment
  | equate
  | definition
  | expansion
deriving DecidableEq, Repr

namespace ConsumedKind

/-- The name of a kind. -/
def name : ConsumedKind → Text
  | imported => "import"
  | comment => "comment"
  | equate => "equate"
  | definition => "macro"
  | expansion => "expansion"

/-- The name of the kind with a given code. -/
def nameOfCode (code : Int) : Text :=
  Text.ofCode "PreKind" ([imported, comment, equate, definition, expansion].map name) code

end ConsumedKind

/-- Source text that the preprocessor consumed. -/
structure Consumed where
  /-- What it was. -/
  kind : ConsumedKind
  /-- The name that it imports or defines. -/
  name : Text
  /-- Its tokens. -/
  tokens : List Token
deriving DecidableEq, Repr

/-- A section with its statements. -/
structure Section where
  /-- The kind of the section. -/
  kind : SectionKind
  /-- The statements. -/
  nodes : List Node
deriving DecidableEq, Repr

/-- The syntax tree of a source file. -/
structure Tree where
  /-- The name of the file. -/
  file : Text
  /-- The sections. -/
  sections : List Section := []
  /-- The labels. -/
  labels : LabelTable := {}
  /-- What the preprocessor consumed. -/
  consumed : List Consumed := []
  /-- What was reported. -/
  diagnostics : List Diagnostic := []
  /-- Whether the tree was assembled without errors. -/
  assembled : Bool := false
deriving DecidableEq, Repr

namespace Tree

/-- The tree with diagnostics added. -/
def report (t : Tree) (ds : List Diagnostic) : Tree := { t with diagnostics := t.diagnostics ++ ds }

/-- The errors that were reported. -/
def errors (t : Tree) : List Diagnostic := t.diagnostics.filter Diagnostic.isError

/-- All statements, in layout order. -/
def nodes (t : Tree) : List Node := t.sections.flatMap Section.nodes

/-- The tree with the sections and labels of another one appended. The copies refer to each other, and
lose their addresses. -/
def graft (t other : Tree) : Tree :=
  let shift (id : LabelId) : LabelId := id + t.labels.size
  { t with
    labels := ⟨t.labels.labels ++ other.labels.labels.map fun label =>
      { label with parent := label.parent.map shift, address := none }⟩
    sections := t.sections ++ other.sections.map fun s =>
      { s with nodes := s.nodes.map (Node.renumber shift) } }

end Tree

end EightBit
