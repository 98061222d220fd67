import EightBit.Isa.Word
import EightBit.Token.Basic
import EightBit.Token.Dialect

/-!
# Values of tokens

The number that a constant stands for, the number of bytes it takes, and the text of a literal.

* `Token.valueIn`: the value of a constant under the number conventions of a dialect.
* `byteSize`: the fewest bytes that hold a number.
* `Token.sizeIn`: the byte width of a constant, at least as wide as its written digits.
* `Token.unquote`: the text of a string or character literal.
-/

namespace EightBit

/-- Whether a number is representable in signed 64 bits. -/
def isInt64 (n : Int) : Bool := -0x8000000000000000 ≤ n && n < 0x8000000000000000

/-- Whether a number of signed 64 bits is too large for `size` bytes: for two's complement if negative, else
unsigned. The bound of a negative number is found in words; that of eight bytes is its own negative. -/
def outgrows (n : Int) (size : Nat) : Bool :=
  if n < 0 then n < Word.toInt (-Word.bit (8 * size - 1))
  else size < 8 && (Word.bit (8 * size)).toNat ≤ n

/-- Counts up from a number as long as a test holds, but at most `steps` times. -/
def countWhile (test : Nat → Bool) : (steps : Nat) → Nat → Nat
  | 0, k => k
  | steps + 1, k => if test k then countWhile test steps (k + 1) else k

/-- The fewest bytes that hold a number of signed 64 bits. -/
def byteSize (n : Int) : Nat := countWhile (outgrows n) 7 1

namespace Token

/-- The base of a numeral and what may introduce it. -/
def radix (tok : Token) (d : Dialect) : Nat × List Text :=
  match tok.kind with
  | .hex => (16, d.hexPrefixes)
  | .bin => (2, d.binPrefixes)
  | _ => (10, [])

/-- The text without what introduces its base. At least one byte has to remain. -/
def stripRadix (introductions : List Text) (text : Text) : Text :=
  match introductions.find? fun p =>
      p.length < text.length && Text.equalFold (text.take p.length) p with
  | some p => text.drop p.length
  | none => text

/-- The digits of a numeral: without what introduces its base and without underscores. -/
def digitsIn (tok : Token) (d : Dialect) : Text :=
  (stripRadix (tok.radix d).2 tok.text).without 0x5F

/-- The value of a constant, or why it has none. -/
def valueIn (tok : Token) (d : Dialect) : Except ValueError Int :=
  match tok.kind with
  | .hex | .bin | .dec | .udec =>
    match (tok.digitsIn d).toInt? (tok.radix d).1 with
    | some n => if isInt64 n then .ok n else .error (.notConstant tok.text)
    | none => .error (.notConstant tok.text)
  | .char =>
    match tok.text.unquoted? with
    | some [b] => .ok b.toNat
    | _ => .error (.notConstant tok.text)
  | .expression =>
    match tok.outcome with
    | some o => o.toExcept
    | none => .error (.notConstant tok.text)
  | _ => .error (.notConstant tok.text)

/-- The number of bytes that the written digits of a hexadecimal or binary numeral span. -/
def writtenSize (tok : Token) (d : Dialect) : Nat :=
  match tok.kind with
  | .hex => ((tok.digitsIn d).length + 1) / 2
  | .bin => ((tok.digitsIn d).length + 7) / 8
  | _ => 0

/-- The byte width of a constant, at least that of its written digits: `$0010` takes two bytes. -/
def sizeIn (tok : Token) (d : Dialect) : Except ValueError Nat :=
  (tok.valueIn d).map fun n => max (byteSize n) (tok.writtenSize d)

/-- The text of a string or character literal. -/
def unquote? (tok : Token) : Option Text :=
  match tok.kind with
  | .string | .char => tok.text.unquoted?
  | _ => none

end Token

/-- The message for a token that is no readable literal. -/
def notStringMessage (text : Text) : Text := ("'" : Text) ++ text ++ ("' is not a string" : Text)

end EightBit
