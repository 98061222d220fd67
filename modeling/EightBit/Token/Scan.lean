import EightBit.Token.Value

/-!
# Scanning

Cutting source text into lexemes. The rules are tried in order at the start of what is left; numbers
must not run into a word, and a sign belongs to a number only where it cannot be an operator. Text that
no rule accepts stops the scan, except after a comment marker, where single characters are taken as
they come until the end of the line.

* `Scan.lexemes`: the lexemes of a text, and what is left where the scan stopped.
* `Scan.located`: lexemes with their locations and stream numbers.
* `Scan.pinned`: lexemes of a substituted text, all at one location.
-/

namespace EightBit

/-- A lexeme before it is given a location. -/
structure Lexeme where
  /-- The lexical class. -/
  kind : TokenKind
  /-- The source text. -/
  text : Text
deriving DecidableEq, Repr

/-- The character that no rule accepts, and where it stands. -/
structure LexError where
  /-- Where the scan stopped. -/
  loc : Location
  /-- The character there. -/
  text : Text
deriving DecidableEq, Repr

/-- The text of a lexical error. -/
def LexError.message (e : LexError) : Text :=
  e.loc.message ++ (": unexpected character " : Text) ++ e.text.quoted

namespace Scan

/-- What earlier lexemes mean for the next one. -/
structure State where
  /-- A sign would belong to a number, since no operand stands before it. -/
  signed : Bool := true
  /-- A comment marker stands earlier in the line. -/
  comment : Bool := false
deriving DecidableEq, Repr

/-- Blanks within a line. -/
def isBlank (b : UInt8) : Bool := b == 0x20 || b == 0x09 || b == 0x0D || b == 0x0C || b == 0x0B

/-- Decimal digits. -/
def isDigit (b : UInt8) : Bool := 0x30 ≤ b && b ≤ 0x39

/-- ASCII letters. -/
def isLetter (b : UInt8) : Bool := (0x41 ≤ b && b ≤ 0x5A) || (0x61 ≤ b && b ≤ 0x7A)

/-- Binary digits. -/
def isBinDigit (b : UInt8) : Bool := b == 0x30 || b == 0x31

/-- Hexadecimal digits. -/
def isHexDigit (b : UInt8) : Bool :=
  isDigit b || (0x41 ≤ b && b ≤ 0x46) || (0x61 ≤ b && b ≤ 0x66)

/-- Letters, digits and the underscore: what a number must not run into. -/
def isIdentifier (b : UInt8) : Bool := isLetter b || isDigit b || b == 0x5F

/-- What a word may start with. -/
def isWordStart (b : UInt8) : Bool := isLetter b || b == 0x5F || b == 0x2E

/-- What a word may go on with. -/
def isWordPart (b : UInt8) : Bool := isWordStart b || isDigit b

/-- The length of the longest run at the start of a text that begins with one class of bytes and goes
on with another. -/
def run? (start part : UInt8 → Bool) : Text → Option Nat
  | [] => none
  | b :: rest => if start b then some (1 + (rest.takeWhile part).length) else none

/-- The length of a run of digits in which underscores may follow the first. -/
def digits? (isDigit : UInt8 → Bool) : Text → Option Nat := run? isDigit fun b => isDigit b || b == 0x5F

/-- How many bytes at the start of a text spell some code points, letter case ignored. -/
def spelled? : List Nat → Text → Option Nat
  | [], _ => some 0
  | _ :: _, [] => none
  | c :: cs, b :: rest =>
    let r := Text.firstRune b rest
    if CodePoint.fold r.code = CodePoint.fold c then
      (spelled? cs ((b :: rest).drop r.width)).map (r.width + ·)
    else none

/-- The length of a number in another base: the first introduction that fits and has a digit after it,
with its digits. -/
def radix? (introductions : List Text) (isDigit : UInt8 → Bool) (t : Text) : Option Nat :=
  introductions.findSome? fun p =>
    (spelled? p.codePoints t).bind fun n => (digits? isDigit (t.drop n)).map (n + ·)

/-- The length of a decimal number with a sign. -/
def signedDigits? : Text → Option Nat
  | b :: rest => if b = 0x2D ∨ b = 0x2B then (digits? isDigit rest).map (1 + ·) else none
  | [] => none

/-- The length of a number, refused if it runs into a word. -/
def apart (t : Text) (length : Option Nat) : Option Nat :=
  length.filter fun n => !(t.drop n).head?.any isIdentifier

/-- The length of one character of a literal: an escaped character, or one that is neither the quote, a
backslash nor a newline. -/
def literalChar? (quote : UInt8) : Text → Option Nat
  | [] => none
  | b :: rest =>
    if b = 0x5C then
      match rest with
      | [] => none
      | c :: more => if c = 0x0A then none else some (1 + (Text.firstRune c more).width)
    else if b = quote ∨ b = 0x0A then none
    else some (Text.firstRune b rest).width

/-- The length of a character literal. -/
def charLiteral? : Text → Option Nat
  | 0x27 :: rest =>
    (literalChar? 0x27 rest).bind fun n =>
      if (rest.drop n).head? = some 0x27 then some (n + 2) else none
  | _ => none

/-- The length of a string literal after its opening quote and a character of which `skip` bytes are
left. -/
def stringTail? : Nat → Text → Option Nat
  | _, [] => none
  | skip + 1, _ :: rest => (stringTail? skip rest).map (1 + ·)
  | 0, b :: rest =>
    if b = 0x22 then some 1
    else (literalChar? 0x22 (b :: rest)).bind fun n => (stringTail? (n - 1) rest).map (1 + ·)

/-- The length of a string literal. -/
def stringLiteral? : Text → Option Nat
  | 0x22 :: rest => (stringTail? 0 rest).map (1 + ·)
  | _ => none

/-- The length of the newline at the start of a text. -/
def newline? (t : Text) : Option Nat := if t.head? = some 0x0A then some 1 else none

/-- The length of a symbol at the start of a text; zero if there is none. -/
def symbolLength (d : Dialect) (t : Text) : Nat :=
  match d.multiSymbols.find? fun s => s.isPrefixOf t with
  | some s => s.length
  | none =>
    match t with
    | b :: _ => if 0x20 < b ∧ b < 0x7F ∧ isIdentifier b = false then 1 else 0
    | [] => 0

/-- The kind and length of what a rule accepts at the start of a text. -/
def rule? (d : Dialect) (st : State) (t : Text) : Option (TokenKind × Nat) :=
  let as (k : TokenKind) (n : Option Nat) : Option (TokenKind × Nat) := n.map fun n => (k, n)
  as .whitespace (run? isBlank isBlank t)
    <|> as .newline (newline? t)
    <|> as .bin (apart t (radix? d.binPrefixes isBinDigit t))
    <|> as .hex (apart t (radix? d.hexPrefixes isHexDigit t))
    <|> as .dec (if st.signed then apart t (signedDigits? t) else none)
    <|> as .udec (apart t (digits? isDigit t))
    <|> as .char (charLiteral? t)
    <|> as .string (stringLiteral? t)
    <|> as .word (run? isWordStart isWordPart t)

/-- The length of the first character of a text. -/
def charLength : Text → Nat
  | [] => 0
  | b :: rest => (Text.firstRune b rest).width

/-- The lexeme at the start of a text; `none` if nothing accepts it. A word that names a register is a
register. -/
def next? (d : Dialect) (st : State) (t : Text) : Option Lexeme :=
  match rule? d st t with
  | some (kind, n) =>
    let text := t.take n
    some ⟨if kind = .word ∧ (d.register? text).isSome then .register else kind, text⟩
  | none =>
    let n := symbolLength d t
    -- Comments are free text, which is taken one character at a time.
    let n := if n = 0 ∧ st.comment then charLength t else n
    if n = 0 then none else some ⟨.symbol, t.take n⟩

/-- What a lexeme means for the ones after it. -/
def State.after (d : Dialect) (st : State) (l : Lexeme) : State where
  signed :=
    -- Blanks do not change what stands before a sign.
    if l.kind = .whitespace then st.signed
    else !(l.kind.isConstant || l.kind == .word || l.kind == .register
      || (l.kind == .symbol && l.text == (")" : Text)))
  comment :=
    if l.kind = .newline then false
    else st.comment || (l.kind == .symbol && l.text == d.comment)

/-- The lexemes of a text whose first `skip` bytes belong to the lexeme before, and what is left where
the scan stopped. -/
def lexemesFrom (d : Dialect) : Nat → State → Text → List Lexeme × Text
  | _, _, [] => ([], [])
  | skip + 1, st, _ :: rest => lexemesFrom d skip st rest
  | 0, st, b :: rest =>
    match next? d st (b :: rest) with
    | none => ([], b :: rest)
    | some l =>
      let more := lexemesFrom d (l.text.length - 1) (st.after d l) rest
      (l :: more.1, more.2)

/-- The lexemes of a text, and what is left where the scan stopped; nothing if it was accepted whole. -/
def lexemes (d : Dialect) (t : Text) : List Lexeme × Text := lexemesFrom d 0 {} t

/-- A place in a source file. -/
structure Position where
  /-- The line, counted from 1. -/
  line : Int := 1
  /-- The column, counted in bytes from 1. -/
  column : Int := 1
deriving DecidableEq, Repr

/-- The place after a lexeme. -/
def Position.after (p : Position) (l : Lexeme) : Position :=
  if l.kind = .newline then ⟨p.line + 1, 1⟩ else ⟨p.line, p.column + l.text.length⟩

/-- The place after some lexemes. -/
def Position.afterAll (p : Position) (ls : List Lexeme) : Position := ls.foldl Position.after p

/-- Lexemes as tokens with their own locations, numbered from `id` on. -/
def located (file : Text) : Position → Nat → List Lexeme → List Token
  | _, _, [] => []
  | p, id, l :: rest =>
    { kind := l.kind, text := l.text, id
      loc := ⟨file, p.line, p.column, p.column + l.text.length⟩ }
      :: located file (p.after l) (id + 1) rest

/-- Lexemes of a substituted text as tokens: all at one location, with fresh negative numbers. -/
def pinned (loc : Location) (ctx : Context) : List Lexeme → List Token × Context
  | [] => ([], ctx)
  | l :: rest =>
    let (id, ctx) := ctx.nextSynthetic
    let (tokens, ctx) := pinned loc ctx rest
    ({ kind := l.kind, text := l.text, loc, id } :: tokens, ctx)

/-- The error for a scan that stopped at a place with some text left. -/
def errorAt? (file : Text) (p : Position) : Text → Option LexError
  | [] => none
  | b :: rest => some
    { loc := ⟨file, p.line, p.column, p.column + 1⟩
      text := CodePoint.encode (Text.firstRune b rest).code }

end Scan

end EightBit
