import EightBit.Text.Number
import EightBit.Text.Printable
import EightBit.Text.Utf8

/-!
# Quoted texts

Literals between quotes. A quoted text shows printable characters as they are and escapes all others;
reading accepts the escapes of both quotes, the numeric escapes `\x`, `\u`, `\U` and three octal digits,
and raw texts between grave accents.

* `Text.quoted`: a text between double quotes.
* `Text.unquoted?`: the text that a literal stands for.
-/

namespace EightBit

namespace Quoted

/-- The escapes of one letter, with the byte that each stands for. -/
def letterEscapes : List (Char × UInt8) :=
  [('a', 7), ('b', 8), ('f', 12), ('n', 10), ('r', 13), ('t', 9), ('v', 11)]

/-- A backslash, a letter and a hexadecimal number of `width` digits. -/
def numericEscape (letter : Char) (width n : Nat) : Text :=
  0x5C :: Text.byteOf letter :: Text.hexLower width n

/-- A code point as it is written between double quotes. -/
def writeCode (c : Nat) : Text :=
  if c = 0x22 ∨ c = 0x5C then [0x5C, c.toUInt8]
  else if CodePoint.isPrintable c then CodePoint.encode c
  else
    match letterEscapes.find? fun e => e.2.toNat = c with
    | some (letter, _) => [0x5C, Text.byteOf letter]
    | none =>
      if c < 0x20 ∨ c = 0x7F then numericEscape 'x' 2 c
      else if c < 0x10000 then numericEscape 'u' 4 c
      else numericEscape 'U' 8 c

/-- A text as it is written between double quotes, when its first `skip` bytes are already written. A
byte that is not part of a valid encoding is written as a number. -/
def writeFrom : Nat → Text → Text
  | _, [] => []
  | skip + 1, _ :: rest => writeFrom skip rest
  | 0, b :: rest =>
    let r := Text.firstRune b rest
    (if r.isInvalid then numericEscape 'x' 2 b.toNat else writeCode r.code)
      ++ writeFrom (r.width - 1) rest

/-- The number of `width` digits in a base at the start of a text, and the rest. -/
def readNumber? (base width : Nat) (t : Text) : Option (Nat × Text) :=
  if t.length < width then none
  else ((t.take width).mapM (Numeral.digitIn? base)).map fun ds =>
    (Numeral.value base ds, t.drop width)

/-- What an escape stands for, read after its backslash, and the rest. The other kind of quote needs
no escape and has none. -/
def readEscape? (quote : UInt8) : Text → Option (Text × Text)
  | [] => none
  | c :: rest =>
    match letterEscapes.find? fun e => Text.byteOf e.1 = c with
    | some (_, b) => some ([b], rest)
    | none =>
      if c = 0x5C ∨ (c = quote ∧ (c = 0x22 ∨ c = 0x27)) then some ([c], rest)
      else if c = Text.byteOf 'x' then
        (readNumber? 16 2 rest).map fun (n, rest) => ([n.toUInt8], rest)
      else if c = Text.byteOf 'u' ∨ c = Text.byteOf 'U' then
        (readNumber? 16 (if c = Text.byteOf 'u' then 4 else 8) rest).bind fun (n, rest) =>
          if CodePoint.isValid n then some (CodePoint.encode n, rest) else none
      else if 0x30 ≤ c ∧ c ≤ 0x37 then
        (readNumber? 8 3 (c :: rest)).bind fun (n, rest) =>
          if n ≤ 0xFF then some ([n.toUInt8], rest) else none
      else none

/-- What the next character between quotes stands for, and the rest. An unescaped newline is refused,
and a byte that is not part of a valid encoding stands for the replacement character. -/
def readChar? (quote : UInt8) : Text → Option (Text × Text)
  | [] => none
  | b :: rest =>
    if b = 0x0A then none
    else if b = 0x5C then readEscape? quote rest
    else
      let r := Text.firstRune b rest
      some (CodePoint.encode r.code, (b :: rest).drop r.width)

/-- What stands between quotes, read up to a closing quote that must end the text. `bound` is at least
the number of bytes left. -/
def readUntil? (quote : UInt8) : Nat → Text → Option Text
  | _, [] => none
  | 0, _ => none
  | bound + 1, b :: rest =>
    if b = quote then (if rest = [] then some [] else none)
    else (readChar? quote (b :: rest)).bind fun (found, rest) =>
      (readUntil? quote bound rest).map (found ++ ·)

end Quoted

namespace Text

/-- The text between double quotes. -/
def quoted (t : Text) : Text := 0x22 :: Quoted.writeFrom 0 t ++ [0x22]

/-- The text that a literal stands for. Single quotes hold at most one character, and carriage returns
between grave accents are dropped. -/
def unquoted? : Text → Option Text
  | 0x22 :: rest => Quoted.readUntil? 0x22 rest.length rest
  | 0x27 :: rest =>
    if rest.head? = some 0x27 then (if rest = [0x27] then some [] else none)
    else (Quoted.readChar? 0x27 rest).bind fun (found, rest) =>
      if rest = [0x27] then some found else none
  | 0x60 :: rest =>
    match cut? 0x60 rest with
    | some (raw, []) => some (raw.without 0x0D)
    | _ => none
  | _ => none

end Text

end EightBit
