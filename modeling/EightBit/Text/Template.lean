import EightBit.Text.Quoted

/-!
# Message templates

Texts with placeholders for numbers and texts. A placeholder is a percent sign, flags, a least width
and a letter: `%d` and `%v` show a number in decimal, `%X` and `%x` in hexadecimal, `%s` and `%v` a text
as it is, `%q` a text in quotes, and `%%` is a percent sign.

* `Template.parse`: the pieces of a template.
* `Template.render`: a template with its placeholders filled in. A separator may group the digits of
  decimal numbers by three, as a language's number format asks for.
* `Template.groupSeparator`: the separator of a language.
-/

namespace EightBit

namespace Template

/-- A value that fills a placeholder. -/
inductive Argument
  /-- A text. -/
  | text (t : Text)
  /-- A number. -/
  | number (n : Int)
deriving DecidableEq, Repr

/-- How a placeholder shows its value. -/
structure Placeholder where
  /-- Fill up with zeros rather than blanks. -/
  zero : Bool := false
  /-- Fill up on the right rather than on the left. -/
  left : Bool := false
  /-- Show the sign of a number that is not negative. -/
  plus : Bool := false
  /-- The least number of characters. -/
  width : Nat := 0
  /-- The letter that selects the form. -/
  verb : UInt8
deriving DecidableEq, Repr

/-- A part of a template. -/
inductive Piece
  /-- A byte that stands for itself. -/
  | literal (b : UInt8)
  /-- A placeholder. -/
  | placeholder (p : Placeholder)
  /-- A percent sign at the end, which selects no form. -/
  | dangling
deriving DecidableEq, Repr

/-- Where the reading of a template stands: in plain text, or inside a placeholder whose flags or width
were read so far. -/
inductive Reading
  /-- Outside any placeholder. -/
  | plain
  /-- Inside a placeholder; `sized` once a digit of the width was read. -/
  | inside (sized : Bool) (p : Placeholder)

/-- The pieces of a template, read from a given state on. -/
def pieces : Reading → Text → List Piece
  | .plain, [] => []
  | .inside .., [] => [.dangling]
  | .plain, b :: rest =>
    if b = 0x25 then pieces (.inside false { verb := 0 }) rest else .literal b :: pieces .plain rest
  | .inside sized p, b :: rest =>
    if !sized && b == 0x30 then pieces (.inside false { p with zero := true }) rest
    else if !sized && b == 0x2D then pieces (.inside false { p with left := true, zero := false }) rest
    else if !sized && b == 0x2B then pieces (.inside false { p with plus := true }) rest
    else if !sized && (b == 0x20 || b == 0x23) then pieces (.inside false p) rest
    else
      match Numeral.digitIn? 10 b with
      | some d => pieces (.inside true { p with width := p.width * 10 + d }) rest
      | none =>
        (if b = 0x25 then .literal b else .placeholder { p with verb := b }) :: pieces .plain rest

/-- The pieces of a template. -/
def parse (template : Text) : List Piece := pieces .plain template

/-- The digits of a decimal numeral, cut from the right into groups of three. -/
def grouped (separator : Text) (digits : Text) : Text :=
  match digits with
  | [] => []
  | d :: rest =>
    d :: (if rest ≠ [] ∧ rest.length % 3 = 0 then separator else []) ++ grouped separator rest

/-- What stands between the groups of digits in the numbers of a language. -/
def groupSeparator (language : Text) : Text := if language == ("de" : Text) then "." else ","

/-- A number with its sign, filled up as a placeholder asks. -/
def showNumber (p : Placeholder) (n : Int) (digits : Text) : Text :=
  let sign : Text := if n < 0 then [0x2D] else if p.plus then [0x2B] else []
  if p.zero && !p.left then sign ++ Text.padZero (p.width - sign.length) digits
  else if p.left then Text.padRight p.width (sign ++ digits)
  else Text.padLeft p.width (sign ++ digits)

/-- A text filled up as a placeholder asks. -/
def showText (p : Placeholder) (t : Text) : Text :=
  if p.left then Text.padRight p.width t
  else if p.zero then List.replicate (p.width - t.runes.length) 0x30 ++ t
  else Text.padLeft p.width t

/-- A value as the plain form of its kind shows it. -/
def Argument.plain (separator : Text) : Argument → Text
  | .text t => t
  | .number n => (if n < 0 then [0x2D] else []) ++ grouped separator (Text.ofNat n.natAbs)

/-- The name of the kind of a value, as it is shown where a placeholder does not fit. -/
def Argument.kindName : Argument → Text
  | .text _ => "string"
  | .number _ => "int"

/-- A value in the form that a placeholder selects. -/
def Argument.render (separator : Text) (p : Placeholder) (a : Argument) : Text :=
  match a with
  | .number n =>
    if p.verb = Text.byteOf 'd' ∨ p.verb = Text.byteOf 'v' then
      showNumber p n (grouped separator (Text.ofNat n.natAbs))
    else if p.verb = Text.byteOf 'X' then showNumber p n (Text.hexUpper 0 n.natAbs)
    else if p.verb = Text.byteOf 'x' then showNumber p n (Text.hexLower 0 n.natAbs)
    else misfit
  | .text t =>
    if p.verb = Text.byteOf 's' ∨ p.verb = Text.byteOf 'v' then showText p t
    else if p.verb = Text.byteOf 'q' then showText p t.quoted
    else if p.verb = Text.byteOf 'x' then
      showText p (t.flatMap fun b => Text.hexLower 2 b.toNat)
    else if p.verb = Text.byteOf 'X' then
      showText p (t.flatMap fun b => Text.hexUpper 2 b.toNat)
    else misfit
where
  /-- What is shown where the selected form does not fit the value. -/
  misfit : Text :=
    ("%!" : Text) ++ p.verb :: ("(" : Text) ++ a.kindName ++ ("=" : Text) ++ a.plain separator
      ++ (")" : Text)

/-- Values left over once every placeholder is filled. -/
def leftOver (separator : Text) (args : List Argument) : Text :=
  ("%!(EXTRA " : Text)
    ++ Text.joinWith ", " (args.map fun a => a.kindName ++ ("=" : Text) ++ a.plain separator)
    ++ (")" : Text)

/-- Pieces with their placeholders filled by the values in order. Values that are left over are shown
at the end if some value was used. -/
def fill (separator : Text) (used : Bool) : List Piece → List Argument → Text
  | [], args => if used && !args.isEmpty then leftOver separator args else []
  | .literal b :: rest, args => b :: fill separator used rest args
  | .dangling :: rest, args => ("%!(NOVERB)" : Text) ++ fill separator used rest args
  | .placeholder p :: rest, [] =>
    ("%!" : Text) ++ p.verb :: ("(MISSING)" : Text) ++ fill separator used rest []
  | .placeholder p :: rest, a :: args => a.render separator p ++ fill separator true rest args

/-- A template with its placeholders filled by the values in order. -/
def render (separator template : Text) (args : List Argument) : Text :=
  fill separator false (parse template) args

end Template

end EightBit
