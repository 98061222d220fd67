import EightBit.Pattern
import EightBit.Preprocess.Basic

/-!
# Equates

A line `.equ NAME, CONSTANT` names a constant. All such lines are collected first, and then every other
use of the name is replaced by the constant, located at the use. The first definition in the source
counts, and it takes precedence over a value defined beforehand.

* `Preprocess.collectEquates`: the definitions of a token stream, and the stream without them.
* `Preprocess.substituteEquates`: a token stream with names replaced.
-/

namespace EightBit

namespace Preprocess

/-- The definition of a constant. -/
def equateFull : Pattern := .spaced [.folded ".equ", .word, .exactly ",", .constant]

/-- The name and value that a line defines. -/
def equateIn? (line : List Token) : Option (Text × Text) := do
  let m ← equateFull.matchExact line
  let name ← m.tokens[1]?
  let value ← m.tokens[3]?
  return (name.text, value.text)

/-- The definitions in some lines after those found before, and the lines without them. -/
def collectEquates (found : List (Text × Text)) : List Line → Output × List (Text × Text)
  | [] => ({}, found)
  | l :: rest =>
    if !startsWith l.tokens ".equ" then
      let (out, found) := collectEquates found rest
      (({ tokens := l.all } : Output) ++ out, found)
    else
      let newline : Output := { tokens := l.newline.toList }
      match equateIn? l.tokens with
      | none =>
        let (out, found) := collectEquates found rest
        (newline ++ .error .equateSyntax l.tokens ++ out, found)
      | some (name, value) =>
        let consumed : Output := { newline with consumed := [⟨.equate, name, l.tokens⟩] }
        -- Only definitions in this stream count: it may override a value defined beforehand.
        if (found.lookup name).isSome then
          let (out, found) := collectEquates found rest
          (consumed ++ .error .equateDuplicate l.tokens ++ out, found)
        else
          let (out, found) := collectEquates (found ++ [(name, value)]) rest
          ({ consumed with events := [.equate name value] } ++ out, found)

/-- A token stream with the names of constants replaced. A word after a backslash is the parameter of a
macro and is kept, as is a word whose value does not scan. -/
def substituteEquates (d : Dialect) (values : List (Text × Text)) (ctx : Context) :
    Option Token → List Token → Output × Context
  | _, [] => ({}, ctx)
  | before, t :: rest =>
    let isParameter := before.any (·.isSymbol "\\")
    match if t.kind = .word ∧ isParameter = false then values.lookup t.text else none with
    | none =>
      let (out, ctx) := substituteEquates d values ctx (some t) rest
      (({ tokens := [t] } : Output) ++ out, ctx)
    | some value =>
      let (scanned, ctx) := Token.pseudoTokenize d ctx value t.loc
      let (out, ctx) := substituteEquates d values ctx (some t) rest
      match scanned.error with
      | none => (({ tokens := scanned.tokens } : Output) ++ out, ctx)
      | some _ =>
        (({ tokens := [t], diagnostics := [.error .substitutionInvalid [t]] } : Output) ++ out, ctx)

/-- The pass that collects and replaces named constants. -/
def equates (cfg : Config) (ctx : Context) (tokens : List Token) : Output × Context :=
  let (kept, found) := collectEquates [] (Line.ofTokens tokens)
  let (out, ctx) := substituteEquates cfg.dialect (found ++ cfg.defines) ctx none kept.tokens
  ({ kept with tokens := [] } ++ out, ctx)

end Preprocess

end EightBit
