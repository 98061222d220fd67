import EightBit.Preprocess.Equate
import EightBit.Preprocess.Import
import EightBit.Preprocess.Macro

/-!
# The preprocessor

The passes one after the other: imports, comments, equates, macros, and the reduction of expressions
that the substitutions formed.
-/

namespace EightBit

/-- A source file on its way through the preprocessor. -/
structure Preprocessed where
  /-- The name of the file. -/
  file : Text
  /-- What the passes yielded so far. -/
  output : Preprocess.Output
  /-- The counters of the compilation. -/
  context : Context := {}

namespace Preprocess

/-- A pass of the preprocessor. -/
inductive Pass
  | imports
  | comments
  | equates
  | macros
  | reduce
deriving DecidableEq, Repr

namespace Pass

/-- The passes in the order in which they are applied. -/
def all : List Pass := [imports, comments, equates, macros, reduce]

/-- The name of a pass. -/
def name : Pass → Text
  | imports => "imports"
  | comments => "comments"
  | equates => "equates"
  | macros => "macros"
  | reduce => "reduce"

/-- The pass with a name. -/
def ofName? (name : Text) : Option Pass := all.find? fun p => p.name == name

/-- What a pass yields for a token stream. -/
def run (cfg : Config) (ctx : Context) (tokens : List Token) : Pass → Output × Context
  | imports => (Preprocess.imports cfg tokens, ctx)
  | comments => (Preprocess.comments cfg tokens, ctx)
  | equates => Preprocess.equates cfg ctx tokens
  | macros => expandMacros cfg ctx tokens
  | reduce => ({ tokens := Token.reduce cfg.dialect tokens }, ctx)

end Pass

/-- A file after one more pass. -/
def step (cfg : Config) (r : Preprocessed) (p : Pass) : Preprocessed :=
  let (out, ctx) := p.run cfg r.context r.output.tokens
  { r with output := { r.output with tokens := [] } ++ out, context := ctx }

/-- A file before the first pass. -/
def start (file : Text) (tokens : List Token) : Preprocessed := { file, output := { tokens } }

/-- A file after all passes. -/
def run (cfg : Config) (file : Text) (tokens : List Token) : Preprocessed :=
  let r := Pass.all.foldl (step cfg) (start file tokens)
  let out := r.output
  { r with output := { out with events := out.events ++
    [.finished file out.tokens.length out.consumed.length out.diagnostics.length] } }

end Preprocess

end EightBit
