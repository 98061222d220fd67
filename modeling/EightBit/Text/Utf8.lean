import EightBit.Text.Basic
import EightBit.Text.LetterCase

/-!
# UTF-8

Reading a byte text as a sequence of code points. A byte that is not part of a valid encoding is read
as one replacement character of width one, so every text can be read and the widths add up to its
length.

* `Text.firstRune`: the code point at the start of a text.
* `Text.runes`: all code points of a text.
* `CodePoint.encode`: the bytes of a code point.
* `Text.equalFold`, `Text.toUpper`, `Text.toLower`: comparison and mapping by letter case.
-/

namespace EightBit

/-- A code point read from a text, with the number of bytes it was read from. -/
structure Rune where
  /-- The code point. -/
  code : Nat
  /-- The number of bytes. -/
  width : Nat
deriving DecidableEq, Repr

namespace CodePoint

/-- The replacement character, which also stands for a byte outside any valid encoding. -/
def replacement : Nat := 0xFFFD

/-- Whether a number is a code point that can be encoded: in range and not a surrogate. -/
def isValid (c : Nat) : Bool := c < 0xD800 || (0xE000 ≤ c && c ≤ 0x10FFFF)

/-- The UTF-8 bytes of a code point; those of the replacement character if it is not valid. -/
def encode (c : Nat) : Text :=
  let c := if isValid c then c else replacement
  if c < 0x80 then [c.toUInt8]
  else if c < 0x800 then [(0xC0 + c / 0x40).toUInt8, (0x80 + c % 0x40).toUInt8]
  else if c < 0x10000 then
    [(0xE0 + c / 0x1000).toUInt8, (0x80 + c / 0x40 % 0x40).toUInt8, (0x80 + c % 0x40).toUInt8]
  else
    [(0xF0 + c / 0x40000).toUInt8, (0x80 + c / 0x1000 % 0x40).toUInt8,
      (0x80 + c / 0x40 % 0x40).toUInt8, (0x80 + c % 0x40).toUInt8]

end CodePoint

namespace Rune

/-- A byte that belongs to no valid encoding. -/
def invalid : Rune := ⟨CodePoint.replacement, 1⟩

/-- Whether the rune stands for a byte that belongs to no valid encoding. -/
def isInvalid (r : Rune) : Bool := r == invalid

end Rune

namespace Text

/-- Whether a byte continues an encoding. -/
def isContinuation (b : UInt8) : Bool := 0x80 ≤ b && b ≤ 0xBF

/-- The six payload bits of a continuation byte. -/
def payload (b : UInt8) : Nat := b.toNat % 0x40

/-- The code point of a text that starts with the byte `b`. Overlong forms, surrogates and numbers
beyond the last code point are no valid encodings. -/
def firstRune (b : UInt8) (rest : Text) : Rune :=
  if b < 0x80 then ⟨b.toNat, 1⟩
  else if 0xC2 ≤ b ∧ b ≤ 0xDF then
    match rest with
    | c :: _ =>
      if isContinuation c then ⟨b.toNat % 0x20 * 0x40 + payload c, 2⟩ else Rune.invalid
    | [] => Rune.invalid
  else if 0xE0 ≤ b ∧ b ≤ 0xEF then
    match rest with
    | c :: d :: _ =>
      let code := b.toNat % 0x10 * 0x1000 + payload c * 0x40 + payload d
      if isContinuation c && isContinuation d && 0x800 ≤ code && CodePoint.isValid code then
        ⟨code, 3⟩
      else Rune.invalid
    | _ => Rune.invalid
  else if 0xF0 ≤ b ∧ b ≤ 0xF4 then
    match rest with
    | c :: d :: e :: _ =>
      let code := b.toNat % 0x08 * 0x40000 + payload c * 0x1000 + payload d * 0x40 + payload e
      if isContinuation c && isContinuation d && isContinuation e && 0x10000 ≤ code
          && CodePoint.isValid code then
        ⟨code, 4⟩
      else Rune.invalid
    | _ => Rune.invalid
  else Rune.invalid

/-- The runes of a text whose first `skip` bytes belong to a rune already read. -/
def runesFrom : Nat → Text → List Rune
  | _, [] => []
  | skip + 1, _ :: rest => runesFrom skip rest
  | 0, b :: rest =>
    let r := firstRune b rest
    r :: runesFrom (r.width - 1) rest

/-- All runes of a text. -/
def runes (t : Text) : List Rune := runesFrom 0 t

/-- All code points of a text. -/
def codePoints (t : Text) : List Nat := t.runes.map Rune.code

/-- Whether a text is valid UTF-8. -/
def isUtf8 (t : Text) : Bool := t.runes.all fun r => !r.isInvalid

/-- Whether two texts differ at most in letter case. -/
def equalFold (s t : Text) : Bool :=
  s.codePoints.map CodePoint.fold == t.codePoints.map CodePoint.fold

/-- The text in upper case. -/
def toUpper (t : Text) : Text := t.codePoints.flatMap fun c => CodePoint.encode (CodePoint.upper c)

/-- The text in lower case. -/
def toLower (t : Text) : Text := t.codePoints.flatMap fun c => CodePoint.encode (CodePoint.lower c)

/-- The text filled up with blanks on the left to `width` characters. -/
def padLeft (width : Nat) (t : Text) : Text := blanks (width - t.runes.length) ++ t

/-- The text filled up with blanks on the right to `width` characters. -/
def padRight (width : Nat) (t : Text) : Text := t ++ blanks (width - t.runes.length)

theorem equalFold_refl (t : Text) : equalFold t t = true := by simp [equalFold]

theorem equalFold_comm (s t : Text) : equalFold s t = equalFold t s := by
  simp [equalFold, Bool.beq_comm]

end Text

end EightBit
