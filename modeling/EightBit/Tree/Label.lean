import EightBit.Token.Basic

/-!
# Labels

The labels of a file, in the order of their declarations. A sub-label has a parent, and its full name
is that of its parent followed by its own. A label that duplicates another one is dropped, but keeps
its place in the table.
-/

namespace EightBit

/-- The place of a label in its table. -/
abbrev LabelId := Nat

/-- A declared label. -/
structure Label where
  /-- The name as declared. -/
  name : Text
  /-- The label that a sub-label is scoped to. -/
  parent : Option LabelId := none
  /-- The token that declares it. -/
  token : Token := {}
  /-- Whether it is exported. -/
  global : Bool := false
  /-- Whether it was removed as a duplicate. -/
  dropped : Bool := false
  /-- The address, once one is assigned. -/
  address : Option UInt64 := none
deriving DecidableEq, Repr

/-- The labels of a file. -/
structure LabelTable where
  /-- All labels, dropped ones included. -/
  labels : List Label := []
deriving DecidableEq, Repr

namespace LabelTable

/-- The number of labels, dropped ones included. -/
def size (t : LabelTable) : Nat := t.labels.length

/-- The table with a label added, which gets the next place. -/
def add (t : LabelTable) (label : Label) : LabelTable := ⟨t.labels ++ [label]⟩

/-- The label at a place. -/
def get? (t : LabelTable) (id : LabelId) : Option Label := t.labels[id]?

/-- The table with the label at a place changed. -/
def modify (t : LabelTable) (id : LabelId) (f : Label → Label) : LabelTable := ⟨t.labels.modify id f⟩

/-- The labels that were not dropped, with their places. -/
def live (t : LabelTable) : List (LabelId × Label) :=
  (t.labels.zipIdx.filter fun (label, _) => !label.dropped).map fun (label, id) => (id, label)

/-- The name of a label after that of its parent. -/
def fullNameOf (t : LabelTable) (label : Label) : Text :=
  ((label.parent.bind t.get?).map Label.name).getD [] ++ label.name

/-- The full name of the label at a place; empty if there is none. -/
def fullName (t : LabelTable) (id : LabelId) : Text := ((t.get? id).map t.fullNameOf).getD []

/-- The live label with a given name under a given parent. -/
def lookup? (t : LabelTable) (parent : Option LabelId) (name : Text) : Option LabelId :=
  (t.live.find? fun (_, label) => label.parent == parent && label.name == name).map Prod.fst

/-- The live label with a given full name. -/
def lookupFull? (t : LabelTable) (name : Text) : Option LabelId :=
  (t.live.find? fun (_, label) => t.fullNameOf label == name).map Prod.fst

/-- The full names of the live labels at an address. -/
def namesAt (t : LabelTable) (address : UInt64) : List Text :=
  (t.live.filter fun (_, label) => label.address == some address).map fun (_, label) =>
    t.fullNameOf label

/-- The table with an address given to a label that has none. -/
def place (t : LabelTable) (id : LabelId) (address : UInt64) : LabelTable :=
  t.modify id fun label => { label with address := some (label.address.getD address) }

end LabelTable

end EightBit
