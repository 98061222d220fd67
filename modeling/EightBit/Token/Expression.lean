import EightBit.Token.Scan

/-!
# Constant expressions

A bracketed operation on two constants, such as `(1 + $20)`, is a constant itself. Reading tokens from
left to right, each closing bracket that completes such an operation turns it into one expression
token, so nested operations are reduced from the inside out.

* `Operator.apply`: the exact integer operation, which fails outside signed 64 bits.
* `Token.reduce`: a token stream with all bracketed operations reduced.
* `Token.tokenize`, `Token.pseudoTokenize`: scanning followed by reduction.
-/

namespace EightBit

/-- The operations that may stand between two constants. -/
inductive Operator
  | add
  | sub
  | mul
  | div
  | mod
  | shiftLeft
  | shiftRight
  | and
  | or
  | xor
deriving DecidableEq, Repr

namespace Operator

/-- All operators. -/
def all : List Operator := [add, sub, mul, div, mod, shiftLeft, shiftRight, and, or, xor]

/-- The text of an operator. -/
def text : Operator → Text
  | add => "+"
  | sub => "-"
  | mul => "*"
  | div => "/"
  | mod => "%"
  | shiftLeft => "<<"
  | shiftRight => ">>"
  | and => "&"
  | or => "|"
  | xor => "^"

/-- The operator with a given text. -/
def ofText? (t : Text) : Option Operator := all.find? fun op => op.text == t

/-- A bit operation on the infinite two's complement of two numbers of signed 64 bits. -/
def bitwise (f : BitVec 64 → BitVec 64 → BitVec 64) (a b : Int) : Int :=
  (f (BitVec.ofInt 64 a) (BitVec.ofInt 64 b)).toInt

/-- The count of a shift, which has to be a signed 32-bit number that is not negative. -/
def shiftCount (n : Int) : Except ArithmeticError Nat :=
  if n < -0x80000000 ∨ 0x80000000 ≤ n then .error (.shiftOutOfRange n)
  else if n < 0 then .error (.shiftNegative n)
  else .ok n.toNat

/-- The exact result of an operation on two numbers of signed 64 bits. Division rounds down and the
remainder has the sign of the divisor; shifts are arithmetic. -/
def apply (op : Operator) (a b : Int) : Except ArithmeticError Int :=
  match op with
  | add => .ok (a + b)
  | sub => .ok (a - b)
  | mul => .ok (a * b)
  | div => if b = 0 then .error .divisionByZero else .ok (a.fdiv b)
  | mod => if b = 0 then .error .moduloByZero else .ok (a.fmod b)
  | shiftLeft => do
    let n ← shiftCount b
    if 512 ≤ n then .error (.shiftTooLarge n) else .ok (a * Int.pow 2 n)
  | shiftRight => do
    let n ← shiftCount b
    .ok (a >>> n)
  | and => .ok (bitwise (· &&& ·) a b)
  | or => .ok (bitwise (· ||| ·) a b)
  | xor => .ok (bitwise (· ^^^ ·) a b)

end Operator

namespace Token

/-- The outcome of an operation on two constants. The left operand's error comes first; the result has
to lie in signed 64 bits. -/
def evaluate (d : Dialect) (left : Token) (op : Operator) (right : Token) : Except ValueError Int := do
  let a ← left.valueIn d
  let b ← right.valueIn d
  let text := ("(" : Text) ++ left.text ++ op.text ++ right.text ++ (")" : Text)
  match op.apply a b with
  | .error e => .error (.expression text (some e))
  | .ok n => if isInt64 n then .ok n else .error (.expression text none)

/-- The next token down a stack that is no blank, with the blanks above it, and what lies below. -/
def popVisible (stack : List Token) : Option (Token × List Token × List Token) :=
  match stack.dropWhile isSpace with
  | [] => none
  | t :: below => some (t, t :: (stack.takeWhile isSpace).reverse, below)

/-- A bracketed operation without its closing bracket. -/
structure Redex where
  /-- The left operand. -/
  left : Token
  /-- The operator. -/
  op : Operator
  /-- The right operand. -/
  right : Token
  /-- The opening bracket. -/
  opening : Token
  /-- All tokens from the opening bracket on, blanks included. -/
  span : List Token

/-- The bracketed operation at the top of a stack, and what lies below it. -/
def redex? (stack : List Token) : Option (Redex × List Token) := do
  -- The stack holds the operation backwards.
  let (right, rightSpan, stack) ← popVisible stack
  guard right.kind.isConstant
  let (opToken, opSpan, stack) ← popVisible stack
  let op ← Operator.ofText? opToken.text
  let (left, leftSpan, stack) ← popVisible stack
  guard left.kind.isConstant
  let (opening, openingSpan, stack) ← popVisible stack
  guard (opening.text == ("(" : Text))
  return ({ left, op, right, opening, span := openingSpan ++ leftSpan ++ opSpan ++ rightSpan }, stack)

/-- The expression token of a bracketed operation and its closing bracket. It starts where the opening
bracket does and reaches to the end of the closing one if that is on the same line. -/
def Redex.token (d : Dialect) (r : Redex) (closing : Token) : Token where
  kind := .expression
  text := join (r.span ++ [closing])
  loc :=
    let loc := r.opening.loc
    if closing.loc.line = loc.line ∧ loc.stop < closing.loc.stop then
      { loc with stop := closing.loc.stop }
    else loc
  id := r.opening.id
  outcome := some (.ofExcept (evaluate d r.left r.op r.right))

/-- Puts a token on a stack, reducing the bracketed operation that it closes. -/
def shift (d : Dialect) (stack : List Token) (t : Token) : List Token :=
  if t.text == (")" : Text) then
    match redex? stack with
    | some (r, below) => r.token d t :: below
    | none => t :: stack
  else t :: stack

/-- A token stream with every bracketed operation on constants reduced to one token. -/
def reduce (d : Dialect) (tokens : List Token) : List Token := (tokens.foldl (shift d) []).reverse

/-- Scanned tokens, up to the error that stopped the scan. -/
structure Scanned where
  /-- The tokens, reduced if the text was accepted whole. -/
  tokens : List Token
  /-- The error that stopped the scan. -/
  error : Option LexError

/-- Scanned tokens are reduced only if the text was accepted whole. -/
def Scanned.ofTokens (d : Dialect) (tokens : List Token) (error : Option LexError) : Scanned where
  tokens := if error.isNone then reduce d tokens else tokens
  error

/-- The tokens of a source file. -/
def tokenize (d : Dialect) (file text : Text) : Scanned :=
  let (lexemes, rest) := Scan.lexemes d text
  .ofTokens d (Scan.located file {} 0 lexemes)
    (Scan.errorAt? file (Scan.Position.afterAll {} lexemes) rest)

/-- The tokens of a text substituted at a location. -/
def pseudoTokenize (d : Dialect) (ctx : Context) (text : Text) (loc : Location) : Scanned × Context :=
  let (lexemes, rest) := Scan.lexemes d text
  let (tokens, ctx) := Scan.pinned loc ctx lexemes
  let start : Scan.Position := ⟨loc.line, loc.column⟩
  (.ofTokens d tokens (Scan.errorAt? loc.file (start.afterAll lexemes) rest), ctx)

end Token

end EightBit
