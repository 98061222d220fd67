import EightBit.Text.Number
import EightBit.Text.Quoted

/-!
# Tokens

The lexical elements of assembly source: what kind of lexeme a token is, its text, where it stands and
its number in the token stream. Tokens that a substitution creates have negative numbers.

* `TokenKind`, `Location`, `Token`: the vocabulary.
* `ValueError`: why a token has no numeric value.
* `Token.join`, `Token.trim`, `Token.lines`: texts, blanks and lines of token runs.
-/

namespace EightBit

/-- The lexical class of a token. -/
inductive TokenKind
  | whitespace
  | newline
  | symbol
  | word
  | register
  | bin
  | hex
  | dec
  | udec
  | string
  | char
  | expression
  /-- A code outside the table, known only by its number. -/
  | other (code : Int)
deriving DecidableEq, Repr

namespace TokenKind

/-- The kinds in the order of their codes. -/
def all : List TokenKind :=
  [whitespace, newline, symbol, word, register, bin, hex, dec, udec, string, char, expression]

/-- The kind with a given code. -/
def ofCode (code : Int) : TokenKind :=
  if code < 0 then other code else all.getD code.toNat (other code)

/-- The name of a kind. -/
def name : TokenKind → Text
  | whitespace => "whitespace"
  | newline => "newline"
  | symbol => "symbol"
  | word => "word"
  | register => "register"
  | bin => "bin"
  | hex => "hex"
  | dec => "dec"
  | udec => "udec"
  | string => "string"
  | char => "char"
  | expression => "expression"
  | other code => ("Kind(" : Text) ++ Text.ofInt code ++ (")" : Text)

/-- Whether tokens of the kind evaluate to a number. -/
def isConstant : TokenKind → Bool
  | bin | hex | dec | udec | char | expression => true
  | _ => false

/-- Whether tokens of the kind are blanks within a line. -/
def isSpace (k : TokenKind) : Bool := k == whitespace

end TokenKind

/-- Where a token stands in its source file. -/
structure Location where
  /-- The name of the source file. -/
  file : Text := []
  /-- The line, counted from 1. -/
  line : Int := 0
  /-- The column of the first byte, counted from 1. -/
  column : Int := 0
  /-- The column after the last byte. -/
  stop : Int := 0
deriving DecidableEq, Repr

/-- The location as messages show it: file, line and column. -/
def Location.message (loc : Location) : Text :=
  (if loc.file.isEmpty then [] else loc.file ++ (":" : Text))
    ++ Text.ofInt loc.line ++ (":" : Text) ++ Text.ofInt loc.column

/-- Why an operation on two numbers has no result. -/
inductive ArithmeticError
  | divisionByZero
  | moduloByZero
  /-- The shift count is not a signed 32-bit number. -/
  | shiftOutOfRange (count : Int)
  | shiftNegative (count : Int)
  | shiftTooLarge (count : Int)
deriving DecidableEq, Repr

/-- The text of an arithmetic error. -/
def ArithmeticError.message : ArithmeticError → Text
  | divisionByZero => "floored division by zero"
  | moduloByZero => "integer modulo by zero"
  | shiftOutOfRange n => Text.ofInt n ++ (" out of range" : Text)
  | shiftNegative n => ("negative shift count: " : Text) ++ Text.ofInt n
  | shiftTooLarge n => ("shift count too large: " : Text) ++ Text.ofInt n

/-- Why a token has no numeric value. -/
inductive ValueError
  /-- The text does not stand for a number of signed 64 bits. -/
  | notConstant (text : Text)
  /-- The operation is undefined, or its result leaves signed 64 bits if no cause is given. -/
  | expression (text : Text) (cause : Option ArithmeticError)
deriving DecidableEq, Repr

/-- The text of a value error. -/
def ValueError.message : ValueError → Text
  | notConstant text => ("'" : Text) ++ text ++ ("' is not a constant" : Text)
  | expression text none => text ++ (" is not a valid expression" : Text)
  | expression text (some cause) =>
    text ++ (" is not a valid expression: " : Text) ++ cause.message

/-- The number that a constant stands for, or why it has none. -/
inductive Outcome
  | value (n : Int)
  | failure (e : ValueError)
deriving DecidableEq, Repr

namespace Outcome

/-- The outcome as a computation that may fail. -/
def toExcept : Outcome → Except ValueError Int
  | value n => .ok n
  | failure e => .error e

/-- The outcome of a computation that may fail. -/
def ofExcept : Except ValueError Int → Outcome
  | .ok n => value n
  | .error e => failure e

@[simp] theorem toExcept_ofExcept (x : Except ValueError Int) : (ofExcept x).toExcept = x := by
  cases x <;> rfl

end Outcome

/-- A lexeme of the source, or of text substituted into it. -/
structure Token where
  /-- The lexical class. -/
  kind : TokenKind := .whitespace
  /-- The source text. -/
  text : Text := []
  /-- Where the token stands. -/
  loc : Location := {}
  /-- The number in the token stream; negative for substituted text. -/
  id : Int := 0
  /-- The outcome of the operation that an expression stands for. -/
  outcome : Option Outcome := none
deriving DecidableEq, Repr

namespace Token

/-- Whether a substitution created the token. -/
def isSynthetic (tok : Token) : Bool := tok.id < 0

/-- Whether the token has a given text, letter case ignored. -/
def is (tok : Token) (text : Text) : Bool := tok.text.equalFold text

/-- Whether the token is a blank within a line. -/
def isSpace (tok : Token) : Bool := tok.kind.isSpace

/-- Whether the token ends a line. -/
def isNewline (tok : Token) : Bool := tok.kind == .newline

/-- Whether the token is a given symbol. -/
def isSymbol (tok : Token) (text : Text) : Bool := tok.kind == .symbol && tok.text == text

/-- Location, kind and quoted text. -/
def describe (tok : Token) : Text :=
  tok.loc.message ++ (" " : Text) ++ tok.kind.name ++ (" " : Text) ++ tok.text.quoted

/-- The source text of a run of tokens. -/
def join (tokens : List Token) : Text := tokens.flatMap Token.text

/-- A run of tokens without the blanks at its end. -/
def trimRight (tokens : List Token) : List Token := (tokens.reverse.dropWhile isSpace).reverse

/-- A run of tokens without the blanks at its start and end. -/
def trim (tokens : List Token) : List Token := trimRight (tokens.dropWhile isSpace)

/-- Whether a run of tokens holds nothing but blanks. -/
def isBlank (tokens : List Token) : Bool := tokens.all isSpace

/-- The location of the first token of a run. -/
def firstLoc (tokens : List Token) : Location := (tokens.head?.map Token.loc).getD {}

/-- The tokens before the first newline, and the rest from that newline on. -/
def splitLine (tokens : List Token) : List Token × List Token :=
  (tokens.takeWhile fun t => !t.isNewline, tokens.dropWhile fun t => !t.isNewline)

@[simp] theorem join_nil : join [] = [] := rfl

@[simp] theorem join_cons (t : Token) (ts : List Token) : join (t :: ts) = t.text ++ join ts := rfl

@[simp] theorem join_append (ts us : List Token) : join (ts ++ us) = join ts ++ join us := by
  simp [join]

theorem splitLine_append (ts : List Token) : (splitLine ts).1 ++ (splitLine ts).2 = ts :=
  List.takeWhile_append_dropWhile

end Token

/-- A line of a token stream. -/
structure Line where
  /-- The tokens of the line. -/
  tokens : List Token
  /-- The newline that ends it; the last line may have none. -/
  newline : Option Token
deriving DecidableEq, Repr

namespace Line

/-- The tokens of a line and of the newline that ends it. -/
def all (l : Line) : List Token := l.tokens ++ l.newline.toList

/-- The lines of a token stream. -/
def ofTokens : List Token → List Line
  | [] => []
  | t :: rest =>
    if t.isNewline then ⟨[], some t⟩ :: ofTokens rest
    else
      match ofTokens rest with
      | [] => [⟨[t], none⟩]
      | l :: ls => ⟨t :: l.tokens, l.newline⟩ :: ls

/-- The lines of a stream hold all of its tokens in order. -/
theorem flatMap_all_ofTokens (ts : List Token) : (ofTokens ts).flatMap all = ts := by
  induction ts with
  | nil => rfl
  | cons t rest ih =>
    by_cases h : t.isNewline
    · simp [ofTokens, h, all, ih]
    · cases hr : ofTokens rest with
      | nil =>
        have hrest : rest = [] := by simpa [hr] using ih.symm
        simp [ofTokens, all, h, hrest]
      | cons l ls =>
        have hrest : l.tokens ++ (l.newline.toList ++ ls.flatMap all) = rest := by
          simpa [hr, all] using ih
        simp [ofTokens, all, h, hr, hrest]

end Line

/-- The counters of one compilation: substituted tokens and macro expansions are numbered in order. -/
structure Context where
  /-- How many substituted tokens were created. -/
  synthetic : Nat := 0
  /-- How many macro expansions were started. -/
  expansion : Nat := 0
deriving DecidableEq, Repr

namespace Context

/-- The next unused negative token number. -/
def nextSynthetic (ctx : Context) : Int × Context :=
  (-(ctx.synthetic + 1 : Int), { ctx with synthetic := ctx.synthetic + 1 })

/-- The next serial number of a macro expansion, counted from 1. -/
def nextExpansion (ctx : Context) : Nat × Context :=
  (ctx.expansion + 1, { ctx with expansion := ctx.expansion + 1 })

end Context

end EightBit
