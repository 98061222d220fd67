import EightBit.Text.Utf8

/-!
# Dialects

The lexical conventions of an architecture: how numbers of other bases are introduced, how comments and
sub-labels are marked, and which words are registers.
-/

namespace EightBit

/-- The lexical conventions of an architecture. -/
structure Dialect where
  /-- What may introduce a hexadecimal number. -/
  hexPrefixes : List Text := []
  /-- What may introduce a binary number. -/
  binPrefixes : List Text := []
  /-- The symbol that starts a comment; none if empty. -/
  comment : Text := []
  /-- What a label starts with that is scoped to the label before it; none if empty. -/
  subLabel : Text := []
  /-- The words that name registers. -/
  registers : List Text := []
  /-- Whether registers are recognised in either letter case. -/
  caseFold : Bool := false
  /-- The symbols of more than one byte; the first that fits is taken. -/
  multiSymbols : List Text := []
deriving DecidableEq, Repr

namespace Dialect

/-- The conventions used where no architecture supplies its own. -/
def standard : Dialect where
  hexPrefixes := ["0x"]
  binPrefixes := ["0b"]
  comment := ";"
  subLabel := "."
  caseFold := true
  multiSymbols := ["<<", ">>"]

/-- The canonical name of the register that a word names. -/
def register? (d : Dialect) (word : Text) : Option Text :=
  d.registers.find? fun r => r == word || (d.caseFold && r.equalFold word)

/-- Whether a label name is scoped to the label before it. -/
def isSubLabel (d : Dialect) (name : Text) : Bool :=
  !d.subLabel.isEmpty && d.subLabel.isPrefixOf name && d.subLabel.length < name.length

end Dialect

end EightBit
