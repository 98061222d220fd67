import EightBit.Token.Value
import EightBit.Tree.Node

/-!
# Assembly errors

Why a statement cannot be encoded.
-/

namespace EightBit

/-- Why a statement cannot be encoded. -/
inductive EncodeError
  /-- A constant has no value. -/
  | value (e : ValueError)
  /-- A literal is not readable. -/
  | notString (text : Text)
  | opcodeMissing
  | operandMissing
  | labelUnresolved
  | branchRange
  | valueRange
  | symbolUnknown
deriving DecidableEq, Repr

/-- The text of an error. -/
def EncodeError.message : EncodeError → Text
  | value e => e.message
  | notString text => notStringMessage text
  | opcodeMissing => "no opcode for addressing mode"
  | operandMissing => "operand missing"
  | labelUnresolved => "label address unresolved"
  | branchRange => "branch target out of range"
  | valueRange => "value does not fit"
  | symbolUnknown => "symbolic constant unknown"

/-- An error in encoding a statement, with the place of the statement. -/
structure AssemblyError where
  /-- Where the statement stands. -/
  loc : Location
  /-- The source text of the statement. -/
  text : Text
  /-- What is wrong. -/
  cause : EncodeError
deriving DecidableEq, Repr

/-- An error in a given statement. -/
def AssemblyError.at (n : Node) (cause : EncodeError) : AssemblyError := ⟨n.loc, n.text, cause⟩

/-- Location, cause and source text. -/
def AssemblyError.message (e : AssemblyError) : Text :=
  e.loc.message ++ (": " : Text) ++ e.cause.message ++ (" '" : Text) ++ e.text ++ ("'" : Text)

/-- The text of the error for a tree that has errors. -/
def treeBrokenMessage : Text := "tree has errors"

end EightBit
