import EightBit.Text.Number
import EightBit.Text.Utf8

/-!
# Sections

The kinds of statements and the kinds of output sections, and which statement may stand in which
section.
-/

namespace EightBit

/-- The kind of a syntax tree node. -/
inductive NodeKind
  | label
  | instruction
  | initializedData
  | uninitializedData
  | sectionStart
  | global
  | setPc
  | sectionBody
  | root
deriving DecidableEq, Repr

namespace NodeKind

/-- The kinds in the order of their codes. -/
def all : List NodeKind :=
  [label, instruction, initializedData, uninitializedData, sectionStart, global, setPc, sectionBody, root]

/-- The name of a kind. -/
def name : NodeKind → Text
  | label => "label"
  | instruction => "instruction"
  | initializedData => "initialized-data"
  | uninitializedData => "uninitialized-data"
  | sectionStart => "section-start"
  | global => "global"
  | setPc => "set-pc"
  | sectionBody => "section"
  | root => "root"

/-- The kind with a given code. -/
def ofCode? (code : Int) : Option NodeKind := if code < 0 then none else all[code.toNat]?

/-- The name of the kind with a given code. -/
def nameOfCode (code : Int) : Text := Text.ofCode "Kind" (all.map name) code

end NodeKind

/-- The kind of an output section. -/
inductive SectionKind
  | text
  | data
  | rodata
  | bss
  /-- A code outside the table, which no directive opens. -/
  | other (code : Int)
deriving DecidableEq, Repr

namespace SectionKind

/-- The kinds that a directive can open, in the order of their codes. -/
def all : List SectionKind := [text, data, rodata, bss]

/-- The kind with a given code. -/
def ofCode (code : Int) : SectionKind := if code < 0 then other code else all.getD code.toNat (other code)

/-- The name of a kind. -/
def name : SectionKind → Text
  | text => "text"
  | data => "data"
  | rodata => "rodata"
  | bss => "bss"
  | other code => Text.ofCode "SectionKind" [] code

/-- The directive that opens a section. -/
def directive (s : SectionKind) : Text := ("." : Text) ++ s.name

/-- The section that a directive opens, in any letter case. -/
def ofDirective? (t : Text) : Option SectionKind := all.find? fun s => t.equalFold s.directive

/-- Whether a kind of node may stand in a section: instructions only in text, initialised data anywhere
but in `bss`, reserved space anywhere but in `rodata`. -/
def allows (s : SectionKind) : NodeKind → Bool
  | .label | .sectionStart | .global | .setPc => true
  | .instruction => s == text
  | .initializedData => s != bss
  | .uninitializedData => s != rodata
  | .sectionBody | .root => false

end SectionKind

end EightBit
