import EightBit.Text.Basic

/-!
# Written numbers

Numerals in a base, most significant digit first, and their reading.

* `Numeral.digits`, `Numeral.value`: the digits of a number and the number of some digits.
* `Text.ofNat`, `Text.ofInt`: decimal numerals.
* `Text.hexUpper`, `Text.hexLower`: hexadecimal numerals with a least number of digits.
* `Text.toInt?`: the number that an optionally signed numeral stands for.
-/

namespace EightBit

namespace Numeral

/-- The digits of `n`, found from the right and put before `found`. The first argument bounds their
number. -/
def digitsOnto (base : Nat) : Nat → Nat → List Nat → List Nat
  | 0, _, found => found
  | bound + 1, n, found =>
    if n < base then n :: found else digitsOnto base bound (n / base) (n % base :: found)

/-- The digits of `n` in a base, most significant first; zero has one digit. -/
def digits (base n : Nat) : List Nat := digitsOnto base (n + 1) n []

/-- The number that digits stand for, most significant first. -/
def value (base : Nat) (ds : List Nat) : Nat := ds.foldl (fun n d => n * base + d) 0

/-- The byte of a digit below 36, with letters from ten on. -/
def digitByte (ten : Char) (d : Nat) : UInt8 :=
  if d < 10 then (0x30 + d).toUInt8 else (ten.toNat + (d - 10)).toUInt8

/-- The digit that a byte stands for. Letters count from ten on, in either case. -/
def digit? (b : UInt8) : Option Nat :=
  if 0x30 ≤ b ∧ b ≤ 0x39 then some (b.toNat - 0x30)
  else if 0x61 ≤ b ∧ b ≤ 0x7A then some (b.toNat - 0x61 + 10)
  else if 0x41 ≤ b ∧ b ≤ 0x5A then some (b.toNat - 0x41 + 10)
  else none

/-- The digit that a byte stands for in a base. -/
def digitIn? (base : Nat) (b : UInt8) : Option Nat := (digit? b).filter (· < base)

/-- The number that a numeral stands for in a base; `none` for the empty text and for a byte that is
no digit of the base. -/
def read? (base : Nat) : Text → Option Nat
  | [] => none
  | t => (t.mapM (digitIn? base)).map (value base)

theorem digits_of_lt {base n : Nat} (h : n < base) : digits base n = [n] := by
  simp [digits, digitsOnto, h]

end Numeral

namespace Text

/-- The decimal numeral of a natural number. -/
def ofNat (n : Nat) : Text := (Numeral.digits 10 n).map (Numeral.digitByte 'a')

/-- The decimal numeral of an integer. -/
def ofInt : Int → Text
  | .ofNat n => ofNat n
  | .negSucc n => 0x2D :: ofNat (n + 1)

/-- A numeral filled up with zeros on the left to `width` digits. -/
def padZero (width : Nat) (t : Text) : Text := List.replicate (width - t.length) 0x30 ++ t

/-- The hexadecimal numeral of `n` in capitals, with at least `width` digits. -/
def hexUpper (width n : Nat) : Text :=
  padZero width ((Numeral.digits 16 n).map (Numeral.digitByte 'A'))

/-- The hexadecimal numeral of `n` in small letters, with at least `width` digits. -/
def hexLower (width n : Nat) : Text :=
  padZero width ((Numeral.digits 16 n).map (Numeral.digitByte 'a'))

/-- The number that a numeral with at most one leading sign stands for. -/
def toInt? (base : Nat) : Text → Option Int
  | 0x2D :: digits => (Numeral.read? base digits).map fun n => -(n : Int)
  | 0x2B :: digits => (Numeral.read? base digits).map fun n => (n : Int)
  | digits => (Numeral.read? base digits).map fun n => (n : Int)

/-- The name of a code: its entry in a list of names, or else the number after the name of the list. -/
def ofCode (family : Text) (names : List Text) (code : Int) : Text :=
  let unnamed := family ++ ("(" : Text) ++ ofInt code ++ (")" : Text)
  if code < 0 then unnamed else names.getD code.toNat unnamed

end Text

end EightBit
