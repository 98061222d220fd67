import EightBit.Isa.Architecture
import EightBit.Tree.Label
import EightBit.Tree.Section

/-!
# Statements

The elements of a source file: label declarations, instructions, data, and directives. An element is
given its address by the layout; the first address given counts.
-/

namespace EightBit

/-- An operand of an instruction or a value of a data directive. -/
structure Operand where
  /-- The token that holds it. -/
  token : Token
  /-- The label that a word refers to. -/
  ref : Option LabelId := none
deriving DecidableEq, Repr

namespace Operand

/-- Whether the operand is a word rather than a constant. -/
def isWord (op : Operand) : Bool := op.token.kind == .word

/-- The number of data elements: one for each byte of a string, else one. -/
def elements (op : Operand) : Nat :=
  if op.token.kind = .string then (op.token.unquote?.map List.length).getD 1 else 1

end Operand

/-- What a statement is. -/
inductive Element
  /-- The declaration of a label. -/
  | label (id : LabelId)
  /-- An instruction in an addressing mode. -/
  | instruction (mnemonic : Text) (mode : Mode) (operand : Option Operand)
  /-- Data with its values. -/
  | data (directive : DataDirective) (values : List Operand)
  /-- Reserved space for some data elements. -/
  | reserve (directive : DataDirective) (count : Nat)
  /-- The start of a section. -/
  | sectionStart (kind : SectionKind)
  /-- The export of a label by its name, with the label once it is found. -/
  | global (found : Option LabelId) (name : Operand)
  /-- The choice of the next address. -/
  | setPc (value : Token)
deriving DecidableEq, Repr

namespace Element

/-- The kind of an element. -/
def kind : Element → NodeKind
  | label .. => .label
  | instruction .. => .instruction
  | data .. => .initializedData
  | reserve .. => .uninitializedData
  | sectionStart .. => .sectionStart
  | global .. => .global
  | setPc .. => .setPc

/-- The operands of an element. -/
def operands : Element → List Operand
  | instruction _ _ operand => operand.toList
  | data _ values => values
  | global _ name => [name]
  | _ => []

/-- The label that an element declares or exports. -/
def labelId? : Element → Option LabelId
  | label id => some id
  | global found _ => found
  | _ => none

/-- The number of bytes of an element, without alignment. -/
def size : Element → Nat
  | instruction _ mode _ => mode.length
  | data directive values => directive.size * values.foldr (fun v n => v.elements + n) 0
  | reserve directive count => directive.size * count
  | _ => 0

/-- The number that addresses of an element have to be a multiple of, if there is one. -/
def alignment? : Element → Option UInt64
  | data directive _ | reserve directive _ =>
    if directive.aligned ∧ 1 < directive.size then some directive.size.toUInt64 else none
  | _ => none

/-- The element with its operands changed. -/
def mapOperands (f : Operand → Operand) : Element → Element
  | instruction mnemonic mode operand => instruction mnemonic mode (operand.map f)
  | data directive values => data directive (values.map f)
  | global found name => global found (f name)
  | e => e

/-- The element with its labels renumbered. -/
def mapLabels (f : LabelId → LabelId) (e : Element) : Element :=
  match e.mapOperands fun op => { op with ref := op.ref.map f } with
  | label id => label (f id)
  | global found name => global (found.map f) name
  | e => e

end Element

/-- A statement of a source file. -/
structure Node where
  /-- The tokens of the statement. -/
  tokens : List Token
  /-- What the statement is. -/
  element : Element
  /-- The label that sub-labels are looked up under. -/
  scope : Option LabelId := none
  /-- The address, once one is assigned. -/
  address : Option UInt64 := none
deriving DecidableEq, Repr

namespace Node

/-- Where the first token stands. -/
def loc (n : Node) : Location := Token.firstLoc n.tokens

/-- The source text without blanks around it. -/
def text (n : Node) : Text := Token.join (Token.trim n.tokens)

/-- The kind of the statement. -/
def kind (n : Node) : NodeKind := n.element.kind

/-- The number of bytes, without alignment. -/
def size (n : Node) : Nat := n.element.size

/-- The address; zero if none is assigned. -/
def addr (n : Node) : UInt64 := n.address.getD 0

/-- The node with an address given to it, unless it has one. -/
def place (n : Node) (address : UInt64) : Node := { n with address := some (n.address.getD address) }

/-- The node with its labels renumbered and without an address. -/
def renumber (f : LabelId → LabelId) (n : Node) : Node :=
  { n with element := n.element.mapLabels f, scope := n.scope.map f, address := none }

@[simp] theorem place_place (n : Node) (a b : UInt64) : (n.place a).place b = n.place a := rfl

end Node

end EightBit
