import EightBit.Text.Quoted

/-!
# Values on the command line

Numbers and switches as they are written on the command line. A number may say its base: `0x`, `0o`, `0b`
or a leading zero, and then underscores may stand between its digits.

* `Reading.natural`, `Reading.integer`: numbers of 64 bits in any base.
* `Reading.integers`: decimal numbers between commas.
* `Reading.switch`: yes or no.
-/

namespace EightBit

/-- Why a value cannot be read. -/
inductive ReadingCause
  | malformed
  | outOfRange
deriving DecidableEq, Repr

/-- The text of a cause. -/
def ReadingCause.message : ReadingCause → Text
  | malformed => "invalid syntax"
  | outOfRange => "value out of range"

/-- A value that cannot be read. -/
structure ReadingError where
  /-- What kind of value was expected. -/
  expected : Text
  /-- What was written. -/
  input : Text
  /-- What is wrong. -/
  cause : ReadingCause
deriving DecidableEq, Repr

/-- Kind of value, input and cause. -/
def ReadingError.message (e : ReadingError) : Text :=
  ("strconv." : Text) ++ e.expected ++ (": parsing " : Text) ++ e.input.quoted ++ (": " : Text)
    ++ e.cause.message

namespace Reading

/-- The byte that may stand between digits. -/
def underscore : UInt8 := 0x5F

/-- The base that a number starting with zero says, and its digits. -/
def base (t : Text) : Nat × Text :=
  match t with
  | 0x30 :: letter :: digit :: rest =>
    if letter = Text.byteOf 'b' ∨ letter = Text.byteOf 'B' then (2, digit :: rest)
    else if letter = Text.byteOf 'o' ∨ letter = Text.byteOf 'O' then (8, digit :: rest)
    else if letter = Text.byteOf 'x' ∨ letter = Text.byteOf 'X' then (16, digit :: rest)
    else (8, letter :: digit :: rest)
  | 0x30 :: rest => (8, rest)
  | _ => (10, t)

/-- The number of some digits after the number `n`, below a bound. The first byte that makes the number
too large or is no digit decides. -/
def digitsBelow (bound base : Nat) (skipped : UInt8 → Bool) : Nat → Text → Except ReadingCause Nat
  | n, [] => .ok n
  | n, b :: rest =>
    if skipped b then digitsBelow bound base skipped n rest
    else
      match Numeral.digitIn? base b with
      | none => .error .malformed
      | some d =>
        let n := n * base + d
        if bound ≤ n then .error .outOfRange else digitsBelow bound base skipped n rest

/-- Whether every underscore stands between two digits. The mark of a base counts as a digit before. -/
def areSeparators : Bool → Text → Bool
  | _, [] => true
  | afterDigit, b :: rest =>
    if b = underscore then afterDigit && !rest.isEmpty && areSeparators false rest
    else areSeparators true rest

/-- The number below 2 ^ 64 that a numeral in any base stands for. -/
def magnitude (t : Text) : Except ReadingCause Nat :=
  if t.isEmpty then .error .malformed
  else
    let (b, digits) := base t
    match digitsBelow UInt64.size b (· == underscore) 0 digits with
    | .error e => .error e
    | .ok n => if areSeparators (b != 10) digits then .ok n else .error .malformed

/-- The number below 2 ^ 64 that a decimal numeral stands for. -/
def decimalMagnitude (t : Text) : Except ReadingCause Nat :=
  if t.isEmpty then .error .malformed else digitsBelow UInt64.size 10 (fun _ => false) 0 t

/-- The signed number of 64 bits that a numeral with an optional sign stands for. -/
def signed (read : Text → Except ReadingCause Nat) (t : Text) : Except ReadingCause Int :=
  match t with
  | 0x2D :: rest => (read rest).bind fun n => if 0x8000000000000000 < n then .error .outOfRange else .ok (-n)
  | 0x2B :: rest => (read rest).bind fun n => if 0x8000000000000000 ≤ n then .error .outOfRange else .ok n
  | _ => (read t).bind fun n => if 0x8000000000000000 ≤ n then .error .outOfRange else .ok n

/-- A reader that tells what it expected. -/
def expecting {α : Type} (expected : Text) (read : Text → Except ReadingCause α) (t : Text) :
    Except ReadingError α :=
  (read t).mapError fun cause => ⟨expected, t, cause⟩

/-- A number without sign, in any base. -/
def natural (t : Text) : Except ReadingError UInt64 :=
  (expecting "ParseUint" magnitude t).map Nat.toUInt64

/-- A number with an optional sign, in any base. -/
def integer : Text → Except ReadingError Int := expecting "ParseInt" (signed magnitude)

/-- Decimal numbers between commas. -/
def integers (t : Text) : Except ReadingError (List Int) :=
  (t.split (Text.byteOf ',')).mapM (expecting "Atoi" (signed decimalMagnitude))

/-- The words for yes. -/
def yes : List Text := ["1", "t", "T", "TRUE", "true", "True"]

/-- The words for no. -/
def no : List Text := ["0", "f", "F", "FALSE", "false", "False"]

/-- Yes or no. -/
def switch : Text → Except ReadingError Bool :=
  expecting "ParseBool" fun t =>
    if yes.contains t then .ok true else if no.contains t then .ok false else .error .malformed

end Reading

end EightBit
