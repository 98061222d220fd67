import EightBit.Token.Value

/-!
# Token patterns

A pattern is a list of components, each of which accepts one token. A spaced pattern ignores blanks
between its components; a tight one does not. The same patterns recognise addressing modes, directives,
macro headers and imports.

* `Component.accepts`: whether a component accepts a token.
* `Pattern.matchStart`, `Pattern.matchExact`: a match at the start, or of the whole run.
* `Pattern.matchAnywhere`, `Pattern.matchAll`: the first match, and all matches that do not overlap.
-/

namespace EightBit

/-- What one token of a match has to be. -/
inductive Component
  /-- A given text, if `fold` in either letter case. -/
  | literal (text : Text) (fold : Bool)
  /-- A token of one of some kinds. -/
  | kinds (ks : List TokenKind)
  /-- A constant of any size. -/
  | constant
  /-- A constant that takes at most `size` bytes, if `unsigned` not negative. -/
  | fitting (d : Dialect) (size : Nat) (unsigned : Bool)
  /-- A register with one of some canonical names. -/
  | register (d : Dialect) (names : List Text)
  /-- What one of two components accepts. -/
  | either (first second : Component)
  /-- A token that a substitution created. -/
  | synthetic
deriving DecidableEq, Repr

namespace Component

/-- A text, in the given letter case. -/
def exactly (text : Text) : Component := .literal text false

/-- A text in any letter case. -/
def folded (text : Text) : Component := .literal text true

/-- A word. -/
def word : Component := .kinds [.word]

/-- A constant that takes at most `size` bytes, or a word. -/
def fittingOrWord (d : Dialect) (size : Nat) (unsigned : Bool) : Component :=
  .either word (.fitting d size unsigned)

/-- Whether a component accepts a token. -/
def accepts : Component → Token → Bool
  | literal text fold, tok => if fold then tok.text.equalFold text else tok.text == text
  | kinds ks, tok => ks.contains tok.kind
  | constant, tok => tok.kind.isConstant
  | fitting d size unsigned, tok =>
    tok.kind.isConstant &&
      match tok.sizeIn d, tok.valueIn d with
      | .ok n, .ok value => n ≤ size && (!unsigned || 0 ≤ value)
      | _, _ => false
  | register d names, tok => tok.kind == .register && (d.register? tok.text).any names.contains
  | either first second, tok => first.accepts tok || second.accepts tok
  | synthetic, tok => tok.isSynthetic

end Component

/-- A list of components, with or without blanks allowed between them. -/
structure Pattern where
  /-- What the tokens of a match have to be, in order. -/
  components : List Component
  /-- Whether blanks between components are ignored. -/
  skipSpace : Bool
deriving DecidableEq, Repr

/-- A match of a pattern. -/
structure Match where
  /-- The index of the first token of the match. -/
  start : Nat
  /-- The number of tokens of the match, ignored blanks included. -/
  length : Nat
  /-- The tokens that the components accepted. -/
  tokens : List Token
deriving DecidableEq, Repr

namespace Match

/-- The index after the last token of the match. -/
def stop (m : Match) : Nat := m.start + m.length

/-- The match as seen from `n` tokens earlier. -/
def shift (m : Match) (n : Nat) : Match := { m with start := m.start + n }

end Match

namespace Pattern

/-- A pattern that ignores blanks between its components. -/
def spaced (components : List Component) : Pattern := ⟨components, true⟩

/-- A pattern whose components have to be adjacent. -/
def tight (components : List Component) : Pattern := ⟨components, false⟩

/-- The number of blanks that a pattern ignores at the start of a run. -/
def ignored (skipSpace : Bool) (tokens : List Token) : Nat :=
  if skipSpace then (tokens.takeWhile Token.isSpace).length else 0

/-- The tokens that components accept one by one, and how many tokens of the run they used up. -/
def take? (skipSpace : Bool) : List Component → List Token → Option (Nat × List Token)
  | [], _ => some (0, [])
  | c :: cs, tokens =>
    let blanks := ignored skipSpace tokens
    match tokens.drop blanks with
    | [] => none
    | t :: rest =>
      if c.accepts t then
        (take? skipSpace cs rest).map fun (n, matched) => (blanks + 1 + n, t :: matched)
      else none

/-- A match at the start of a run. -/
def matchStart (p : Pattern) (tokens : List Token) : Option Match :=
  (take? p.skipSpace p.components tokens).map fun (n, matched) => ⟨0, n, matched⟩

/-- A match of a whole run. Blanks may follow if the pattern ignores them. -/
def matchExact (p : Pattern) (tokens : List Token) : Option Match :=
  (p.matchStart tokens).filter fun m =>
    let rest := tokens.drop m.length
    rest.length == ignored p.skipSpace rest

/-- Whether a match may start at a token: a pattern that ignores blanks never starts on one. -/
def startsOn (p : Pattern) (t : Token) : Bool :=
  !(p.skipSpace && !p.components.isEmpty && t.isSpace)

/-- The first match in a run. -/
def matchAnywhere (p : Pattern) : List Token → Option Match
  | [] => none
  | t :: rest =>
    match if p.startsOn t then p.matchStart (t :: rest) else none with
    | some m => some m
    | none => (p.matchAnywhere rest).map (·.shift 1)

end Pattern

end EightBit
