import EightBit.Token.Expression
import EightBit.Tree.Basic

/-!
# Preprocessing

Passes over a token stream before it is parsed. A pass yields tokens, what it consumed, what it
reported, the files it imported and what there is to tell about its work.

* `Preprocess.Output`: what a pass yields; outputs are put together with `++`.
* `Preprocess.Event`: a line of the report on the work done.
* `Preprocess.comments`: the pass that removes comments.
-/

namespace EightBit

/-- Something to tell about the work of the preprocessor. -/
inductive Event
  /-- A file was looked up for an import. -/
  | lookup (name : Text)
  | imported (name : Text)
  | equate (name value : Text)
  | definition (name : Text) (params : List Text)
  /-- All passes are done. -/
  | finished (file : Text) (tokens consumed diagnostics : Nat)
deriving DecidableEq, Repr

/-- The line that tells an event; looking up a file is not told. -/
def Event.line? : Event → Option Text
  | lookup _ => none
  | imported name => some (("preproc: import " : Text) ++ name)
  | equate name value => some (("preproc: .equ " : Text) ++ name ++ (" = " : Text) ++ value)
  | definition name params =>
    some (("preproc: .macro " : Text) ++ name ++ (" " : Text) ++ Text.joinWith ", " params)
  | finished file tokens consumed diagnostics =>
    some (("preproc: " : Text) ++ file ++ (": " : Text) ++ Text.ofNat tokens ++ (" tokens, " : Text)
      ++ Text.ofNat consumed ++ (" pre-resolved, " : Text) ++ Text.ofNat diagnostics
      ++ (" diagnostics" : Text))

namespace Preprocess

/-- What the passes depend on. -/
structure Config where
  /-- The lexical conventions. -/
  dialect : Dialect
  /-- The trees of files that may be imported, by name. -/
  files : Text → Option Tree := fun _ => none
  /-- Values defined beforehand. -/
  defines : List (Text × Text) := []

/-- What a pass yields. -/
structure Output where
  /-- The tokens that go on. -/
  tokens : List Token := []
  /-- What was consumed. -/
  consumed : List Consumed := []
  /-- What was reported. -/
  diagnostics : List Diagnostic := []
  /-- The trees of imported files. -/
  imports : List Tree := []
  /-- What there is to tell. -/
  events : List Event := []

namespace Output

/-- Two outputs, one after the other. -/
def append (a b : Output) : Output where
  tokens := a.tokens ++ b.tokens
  consumed := a.consumed ++ b.consumed
  diagnostics := a.diagnostics ++ b.diagnostics
  imports := a.imports ++ b.imports
  events := a.events ++ b.events

instance : Append Output := ⟨append⟩

/-- Outputs, one after the other. -/
def concat (os : List Output) : Output := os.foldr append {}

/-- An error. -/
def error (cause : Cause) (tokens : List Token) : Output :=
  { diagnostics := [.error cause tokens] }

end Output

/-- Whether a run of tokens holds the comment marker. -/
def isCommented (d : Dialect) (tokens : List Token) : Bool :=
  !d.comment.isEmpty && tokens.any (·.isSymbol d.comment)

/-- Whether the first token of a line that is no blank is a given word, in any letter case. -/
def startsWith (tokens : List Token) (word : Text) : Bool :=
  (tokens.dropWhile Token.isSpace).head?.any fun t => t.kind == .word && t.is word

/-- A line without what follows its comment marker. -/
def commentLine (d : Dialect) (l : Line) : Output :=
  let kept := l.tokens.takeWhile fun t => !t.isSymbol d.comment
  let comment := l.tokens.drop kept.length
  { tokens := kept ++ l.newline.toList
    consumed := if comment.isEmpty then [] else [⟨.comment, [], comment⟩] }

/-- The pass that removes everything from the comment marker to the end of the line. -/
def comments (cfg : Config) (tokens : List Token) : Output :=
  if cfg.dialect.comment.isEmpty then { tokens }
  else .concat ((Line.ofTokens tokens).map (commentLine cfg.dialect))

end Preprocess

end EightBit
