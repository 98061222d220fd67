import EightBit.Tree.Basic

/-!
# Linking

Gives every reference its label. First, of labels with the same name under the same parent only the
first is kept, and the sub-labels of a dropped label move to the one that was kept. Then the exports and
the operands of instructions and data are resolved.

* `LabelTable.resolve?`: the label that a word refers to.
* `Tree.link`: a tree with its references resolved.
-/

namespace EightBit

/-- Sections with their nodes changed or removed one after the other, and a state threaded through. -/
def Section.rebuild {σ : Type} (step : σ → Node → σ × Option Node) : σ → List Section → σ × List Section
  | s, [] => (s, [])
  | s, sec :: rest =>
    let (s, kept) := nodes s sec.nodes
    let (s, rest) := rebuild step s rest
    (s, { sec with nodes := kept } :: rest)
where
  /-- The nodes of one section, changed or removed. -/
  nodes : σ → List Node → σ × List Node
    | s, [] => (s, [])
    | s, n :: rest =>
      let (s, kept) := step s n
      let (s, rest) := nodes s rest
      (s, kept.toList ++ rest)

/-- The label that a word refers to: a sub-label under the given parent, else a label of that name, else
a label of that full name. -/
def LabelTable.resolve? (t : LabelTable) (d : Dialect) (scope : Option LabelId) (name : Text) :
    Option LabelId :=
  if d.isSubLabel name then t.lookup? scope name
  else (t.lookup? none name).or (t.lookupFull? name)

namespace Link

/-- The state of the search for duplicate labels. -/
structure Duplicates where
  /-- The labels. -/
  labels : LabelTable
  /-- The labels that were kept, by parent and name. -/
  seen : List ((Option LabelId × Text) × LabelId) := []
  /-- The dropped labels, each with the label that it duplicates. -/
  moved : List (LabelId × LabelId) := []
  /-- What was reported. -/
  diagnostics : List Diagnostic := []

/-- The label that took the place of a label. -/
def Duplicates.current (s : Duplicates) (id : Option LabelId) : Option LabelId :=
  id.map fun id => (s.moved.lookup id).getD id

/-- A node under labels that were kept; the declaration of a duplicate is removed. -/
def dropDuplicate (s : Duplicates) (n : Node) : Duplicates × Option Node :=
  let n := { n with scope := s.current n.scope }
  match n.element with
  | .label id =>
    match s.labels.get? id with
    | none => (s, some n)
    | some label =>
      -- A sub-label of a dropped label is looked up under the label that was kept.
      let parent := s.current label.parent
      let s := { s with labels := s.labels.modify id fun l => { l with parent } }
      match s.seen.lookup (parent, label.name) with
      | some first =>
        ({ s with
          labels := s.labels.modify id fun l => { l with dropped := true }
          moved := (id, first) :: s.moved
          diagnostics := s.diagnostics ++ [.error .labelDuplicate n.tokens] }, none)
      | none => ({ s with seen := ((parent, label.name), id) :: s.seen }, some n)
  | _ => (s, some n)

/-- The state of the resolution of references. -/
structure References where
  /-- The labels. -/
  labels : LabelTable
  /-- What was reported. -/
  diagnostics : List Diagnostic := []

/-- The operand of a node with its label. -/
def bind (d : Dialect) (labels : LabelTable) (scope : Option LabelId) (op : Operand) : Operand :=
  { op with ref := if op.isWord then labels.resolve? d scope op.token.text else none }

/-- What is wrong with an operand after it was resolved. -/
def missing? (op : Operand) : Option Diagnostic :=
  if op.isWord && op.ref.isNone then some (.error (.labelMissing op.token.text) [op.token]) else none

/-- A node with its references resolved; an export without a label is removed. Where data may be
symbolic, words in data need not be labels. -/
def resolve (arch : Architecture) (s : References) (n : Node) : References × Option Node :=
  match n.element with
  | .global _ name =>
    match s.labels.resolve? arch.dialect none name.token.text with
    | none =>
      ({ s with diagnostics := s.diagnostics ++ [.error .globalMissing n.tokens] }, none)
    | some id =>
      ({ s with labels := s.labels.modify id fun l => { l with global := true } },
        some { n with element := .global (some id) { name with ref := some id } })
  | .instruction .. | .data .. =>
    let e := n.element.mapOperands (bind arch.dialect s.labels n.scope)
    let reported :=
      if arch.symbolicData && e.kind == .initializedData then [] else e.operands.filterMap missing?
    ({ s with diagnostics := s.diagnostics ++ reported }, some { n with element := e })
  | _ => (s, some n)

end Link

/-- The tree with duplicate labels dropped and references resolved. -/
def Tree.link (arch : Architecture) (t : Tree) : Tree :=
  let (dup, sections) := Section.rebuild Link.dropDuplicate { labels := t.labels } t.sections
  let (refs, sections) := Section.rebuild (Link.resolve arch) { labels := dup.labels } sections
  { t with sections, labels := refs.labels }.report (dup.diagnostics ++ refs.diagnostics)

end EightBit
