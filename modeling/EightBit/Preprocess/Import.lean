import EightBit.Pattern
import EightBit.Preprocess.Basic

/-!
# Imports

A line `#import "name"` stands for the statements of another file, which has to be free of errors and
assembled already. The line is removed whether or not the import succeeds; the sections of the other
file are appended when the tree is built.

* `Preprocess.importNames`: the names that the imports of a token stream look up.
* `Preprocess.imports`: the pass that removes import lines.
-/

namespace EightBit

namespace Preprocess

/-- How an import line starts. -/
def importStart : Pattern := .tight [.exactly "#", .folded "import"]

/-- An import line. -/
def importFull : Pattern := .spaced [.exactly "#", .folded "import", .kinds [.string]]

/-- An import line, with what stands before it in the line. -/
structure ImportLine where
  /-- The tokens before the import. -/
  before : List Token
  /-- The tokens of the import. -/
  tokens : List Token
  /-- The name of the file; empty if the line is malformed. -/
  name : Text

/-- The import in a line, unless a comment marker stands before it. Nothing but a comment may follow the
name. -/
def importIn? (d : Dialect) (line : List Token) : Option ImportLine := do
  let found ← importStart.matchAnywhere line
  let before := line.take found.start
  guard (!isCommented d before)
  let tokens := line.drop found.start
  let name :=
    match importFull.matchStart tokens with
    | some m =>
      -- A comment may follow; the pass that removes comments comes later.
      let trailing := Token.trim (tokens.drop m.length)
      if trailing.isEmpty || isCommented d (trailing.take 1) then
        (m.tokens[2]?.bind Token.unquote?).getD []
      else []
    | none => []
  return { before, tokens, name }

/-- The tree of a file that may be imported, or why it may not. -/
def findImport (cfg : Config) (name : Text) : Except Cause Tree :=
  match cfg.files name with
  | none => .error .importMissing
  | some tree =>
    if !tree.errors.isEmpty then .error .importBroken
    else if !tree.assembled then .error .importUnbuilt
    else .ok tree

/-- What an import line yields, what stands before it apart. -/
def importOutput (cfg : Config) (l : ImportLine) : Output :=
  ({ consumed := [⟨.imported, l.name, l.tokens⟩] } : Output) ++
    if l.name.isEmpty then .error .importSyntax l.tokens
    else
      match findImport cfg l.name with
      | .error cause => { diagnostics := [.error cause l.tokens], events := [.lookup l.name] }
      | .ok tree => { imports := [tree], events := [.lookup l.name, .imported l.name] }

/-- A line without its import. -/
def importLine (cfg : Config) (l : Line) : Output :=
  match importIn? cfg.dialect l.tokens with
  | none => { tokens := l.all }
  | some i => importOutput cfg i ++ { tokens := i.before ++ l.newline.toList }

/-- The pass that removes import lines. -/
def imports (cfg : Config) (tokens : List Token) : Output :=
  .concat ((Line.ofTokens tokens).map (importLine cfg))

/-- The names that the imports of a token stream look up, in order. -/
def importNames (d : Dialect) (tokens : List Token) : List Text :=
  ((Line.ofTokens tokens).filterMap fun l => (importIn? d l.tokens).map ImportLine.name).filter
    (!·.isEmpty)

end Preprocess

end EightBit
