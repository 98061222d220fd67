import EightBit.Preprocess.Run
import EightBit.Tree.Link
import EightBit.Tree.Statement

/-!
# Parsing

Builds the tree of a preprocessed file line by line. After a number of errors the rest of the file is
left out. The statements are then put into sections, the sections of imported files are appended, and
the references are linked.

* `Parse.lines`: the statements of a file.
* `Parse.bundle`: statements put into sections.
* `Tree.parse`: the tree of a file.
-/

namespace EightBit

/-- What was found in a file so far. -/
structure Parse where
  /-- The labels. -/
  labels : LabelTable := {}
  /-- The statements. -/
  nodes : List Node := []
  /-- The last label that is no sub-label. -/
  parent : Option LabelId := none
  /-- The errors. -/
  errors : List Diagnostic := []

namespace Parse

/-- The number of errors after which a file is abandoned. -/
def errorLimit : Nat := 10

/-- Whether the file was abandoned. -/
def isDone (s : Parse) : Bool := errorLimit ≤ s.errors.length

/-- One more error; the last one allowed is followed by the notice that there are too many. -/
def report (s : Parse) (d : Diagnostic) : Parse :=
  if s.isDone then s
  else if s.errors.length + 1 < errorLimit then { s with errors := s.errors ++ [d] }
  else { s with errors := s.errors ++ [d, .error .tooManyErrors d.tokens] }

/-- One more statement. -/
def add (s : Parse) (n : Node) : Parse := { s with nodes := s.nodes ++ [n] }

/-- One more label. A sub-label needs a label before it. -/
def label (d : Dialect) (s : Parse) (decl : Token × Token) : Parse :=
  let (name, colon) := decl
  let tokens := [name, colon]
  let id := s.labels.size
  if d.isSubLabel name.text then
    match s.parent with
    | none => s.report (.error .subLabelOrphan tokens)
    | some parent =>
      { s with labels := s.labels.add { name := name.text, parent := some parent, token := name } }.add
        { tokens, element := .label id }
  else
    { s with labels := s.labels.add { name := name.text, token := name }, parent := some id }.add
      { tokens, element := .label id }

/-- The labels and the statement of one more line. -/
def line (arch : Architecture) (s : Parse) (tokens : List Token) : Parse :=
  let (labels, statement) := Statement.splitLabels (Token.trimRight tokens)
  let s := labels.foldl (label arch.dialect) s
  match statement with
  | [] => s
  | head :: args =>
    match Statement.node arch s.parent head args with
    | .ok n => s.add n
    | .error d => s.report d

/-- The lines of a file, up to the one in which it is abandoned. -/
def lines (arch : Architecture) (s : Parse) : List Line → Parse
  | [] => s
  | l :: rest => if s.isDone then s else lines arch (s.line arch l.tokens) rest

/-- Nodes put into sections: those that continue a section of a given kind, the sections after it, and
what was reported. A section directive starts a new section; a node that its section does not allow is
reported and left out. -/
def bundle (kind : SectionKind) : List Node → List Node × List Section × List Diagnostic
  | [] => ([], [], [])
  | n :: rest =>
    match n.element with
    | .sectionStart next =>
      -- The directive belongs to the section that it opens.
      let (first, more, reported) := bundle next rest
      ([], { kind := next, nodes := n :: first } :: more, reported)
    | _ =>
      let (first, more, reported) := bundle kind rest
      if kind.allows n.kind then (n :: first, more, reported)
      else (first, more, .error (.misplaced n.kind kind) n.tokens :: reported)

/-- All sections of a file. Nodes before the first section directive are text. -/
def sections (nodes : List Node) : List Section × List Diagnostic :=
  let (first, more, reported) := bundle .text nodes
  (if first.isEmpty then more else { kind := .text, nodes := first } :: more, reported)

end Parse

/-- The tree of a preprocessed file before its references are linked. -/
def Tree.ofPreprocessed (arch : Architecture) (r : Preprocessed) : Tree :=
  let out := r.output
  let found := Parse.lines arch {} (Line.ofTokens out.tokens)
  let (sections, misplaced) := Parse.sections found.nodes
  let tree : Tree :=
    { file := r.file, sections, labels := found.labels, consumed := out.consumed,
      diagnostics := out.diagnostics ++ found.errors ++ misplaced }
  out.imports.foldl Tree.graft tree

/-- The tree of a preprocessed file. -/
def Tree.parse (arch : Architecture) (r : Preprocessed) : Tree :=
  (Tree.ofPreprocessed arch r).link arch

end EightBit
