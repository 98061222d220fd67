import EightBit.Pattern
import EightBit.Preprocess.Basic

/-!
# Macros

Lines between `.macro NAME p1, p2` and `.endm` define a macro. A later line that starts with its name,
perhaps after a label, is replaced by these lines, in which `\p1` stands for the first argument and `\@`
for a number that no other expansion has. The replacement is searched for invocations again, up to a
fixed depth.

* `Macro`: a definition.
* `Preprocess.expandLine`: a line with its invocation replaced.
* `Preprocess.expandMacros`: the pass that collects definitions and expands invocations.
-/

namespace EightBit

/-- The definition of a macro. -/
structure Macro where
  /-- The name. -/
  name : Text
  /-- The names of the parameters. -/
  params : List Text
  /-- The tokens of the lines between the definition's ends, newlines included. -/
  body : List Token
deriving DecidableEq, Repr

namespace Preprocess

/-- How deep macros may invoke macros. -/
def macroDepthLimit : Nat := 16

/-- How a definition starts. -/
def macroHeader : Pattern := .spaced [.folded ".macro", .word]

/-- The parts of a run of tokens between the commas that stand outside brackets. -/
def splitArguments (depth : Int) : List Token → List (List Token)
  | [] => [[]]
  | t :: rest =>
    if t.isSymbol "," && depth == 0 then [] :: splitArguments depth rest
    else
      let depth := if t.isSymbol "(" then depth + 1 else if t.isSymbol ")" then depth - 1 else depth
      match splitArguments depth rest with
      | [] => [[t]]
      | part :: parts => (t :: part) :: parts

/-- The parameter names in the parts of a header, and whether a trailing comma was found; `none` if a
part is neither a word nor a register. -/
def parameterNames (isFirst : Bool) : List (List Token) → Option (List Text × Bool)
  | [] => some ([], false)
  | part :: rest =>
    match Token.trim part with
    | [] => if !isFirst && rest.isEmpty then some ([], true) else none
    | [t] =>
      if t.kind = .word ∨ t.kind = .register then
        (parameterNames false rest).map fun (names, trailing) => (t.text :: names, trailing)
      else none
    | _ => none

/-- Whether the parameter names before a trailing comma are well formed. -/
def hasTrailingComma (parts : List (List Token)) : Bool := (parameterNames true parts).any Prod.snd

/-- A definition whose end was not found yet. -/
structure OpenMacro where
  /-- The line that starts it. -/
  header : List Token
  /-- The name and the parameters; `none` if the line is malformed. -/
  signature : Option (Text × List Text)
  /-- All tokens so far. -/
  tokens : List Token
  /-- The tokens of the body so far. -/
  body : List Token := []
  /-- Whether another definition starts inside. -/
  nested : Bool := false

/-- A definition that starts with a line, and what the line yields. -/
def openMacro (l : Line) : OpenMacro × Output :=
  let newline : Output := { tokens := l.newline.toList }
  match macroHeader.matchStart l.tokens with
  | none => ({ header := l.tokens, signature := none, tokens := l.all }, newline)
  | some m =>
    let rest := l.tokens.drop m.length
    let parts := if Token.isBlank rest then [] else splitArguments 0 rest
    let names := parameterNames true parts
    let warning : Output :=
      if hasTrailingComma parts then { diagnostics := [.warning .macroTrailingComma rest] } else {}
    let signature := names.bind fun (params, _) => m.tokens[1]?.map fun name => (name.text, params)
    ({ header := l.tokens, signature, tokens := l.all }, newline ++ warning)

/-- The macro that the end of a definition completes, and what it yields. -/
def OpenMacro.close (o : OpenMacro) (macros : List Macro) (l : Line) : List Macro × Output :=
  match o.signature with
  | none => (macros, .error .macroSyntax o.header)
  | some (name, params) =>
    if o.nested then (macros, {})
    else
      let consumed : Output := { consumed := [⟨.definition, name, o.tokens ++ l.all⟩] }
      if macros.any (·.name == name) then (macros, consumed ++ .error .macroDuplicate o.header)
      else
        (macros ++ [{ name, params, body := o.body }],
          { consumed with events := [.definition name params] })

/-- The body text with parameters replaced by arguments; `none` if a parameter is unknown. The last
parameter of a name counts. -/
def substituteBody (params : List Text) (args : List (List Token)) (serial : Nat) :
    List Token → Option Text
  | [] => some []
  | [t] => some t.text
  | t :: next :: rest =>
    if !t.isSymbol "\\" then (substituteBody params args serial (next :: rest)).map (t.text ++ ·)
    else if next.text = ("@" : Text) then
      (substituteBody params args serial rest).map ((("_" : Text) ++ Text.ofNat serial) ++ ·)
    else if next.kind = .word ∨ next.kind = .register then
      match (params.zip args).reverse.lookup next.text with
      | none => none
      | some arg => (substituteBody params args serial rest).map (Token.join arg ++ ·)
    else (substituteBody params args serial (next :: rest)).map (t.text ++ ·)

/-- What stands before the invocation in a line, and the macro with the tokens from its name on. The name
is the first word of the line after at most one label. -/
def invocation? (macros : List Macro) (line : List Token) :
    Option (List Token × Macro × Token × List Token) :=
  let blanks := line.takeWhile Token.isSpace
  let at_ (before rest : List Token) : Option (List Token × Macro × Token × List Token) :=
    match rest with
    | t :: args =>
      if t.kind = .word then
        (macros.find? (·.name == t.text)).map fun m => (before, m, t, args)
      else none
    | [] => none
  match line.drop blanks.length with
  | label :: colon :: rest =>
    if label.kind = .word ∧ colon.text = (":" : Text) then
      let more := rest.takeWhile Token.isSpace
      at_ (blanks ++ label :: colon :: more) (rest.drop more.length)
    else at_ blanks (label :: colon :: rest)
  | rest => at_ blanks rest

/-- The arguments of an invocation. -/
def arguments (args : List Token) : List (List Token) :=
  if Token.isBlank args then [] else (splitArguments 0 args).map Token.trim

/-- A line with its invocation replaced, in which macros may invoke macros to a given depth. -/
def expandLine (d : Dialect) (macros : List Macro) :
    Nat → Context → List Token → Output × Context
  | depth, ctx, line =>
    match invocation? macros line with
    | none => ({ tokens := line }, ctx)
    | some (before, m, name, args) =>
      let refuse (cause : Cause) : Output :=
        { tokens := before, diagnostics := [.error cause (name :: args)] }
      match depth with
      | 0 => (refuse .macroDepth, ctx)
      | depth + 1 =>
        if (arguments args).length ≠ m.params.length then (refuse .macroArity, ctx)
        else
          -- The serial number is used up even if the body cannot be filled in.
          let (serial, ctx) := ctx.nextExpansion
          match substituteBody m.params (arguments args) serial m.body with
          | none => (refuse .macroParameter, ctx)
          | some text =>
            let (scanned, ctx) := Token.pseudoTokenize d ctx text name.loc
            match scanned.error with
            | some _ => (refuse .substitutionInvalid, ctx)
            | none =>
              let start : Output :=
                { tokens := before, consumed := [⟨.expansion, m.name, name :: args⟩] }
              (Line.ofTokens scanned.tokens).foldl (fun (acc : Output × Context) l =>
                let (out, ctx) := expandLine d macros depth acc.2 l.tokens
                (acc.1 ++ out ++ { tokens := l.newline.toList }, ctx)) (start, ctx)

/-- The lines of a stream with definitions removed and invocations replaced. A definition may be open
before the lines. -/
def expandLines (d : Dialect) (macros : List Macro) (ctx : Context) :
    Option OpenMacro → List Line → Output × Context
  | none, [] => ({}, ctx)
  | some o, [] => (.error .macroLonely o.header, ctx)
  | some o, l :: rest =>
    if startsWith l.tokens ".endm" then
      let (macros, closed) := o.close macros l
      let (out, ctx) := expandLines d macros ctx none rest
      (closed ++ out, ctx)
    else
      -- A definition inside is reported, and spoils the outer one.
      let inner := startsWith l.tokens ".macro"
      let o := { o with
        tokens := o.tokens ++ l.all, body := o.body ++ l.all, nested := o.nested || inner }
      let (out, ctx) := expandLines d macros ctx (some o) rest
      ((if inner then Output.error .macroNesting l.tokens else {}) ++ out, ctx)
  | none, l :: rest =>
    if startsWith l.tokens ".macro" then
      let (o, opened) := openMacro l
      let (out, ctx) := expandLines d macros ctx (some o) rest
      (opened ++ out, ctx)
    else if startsWith l.tokens ".endm" then
      let (out, ctx) := expandLines d macros ctx none rest
      (.error .macroLonelyEnd l.tokens ++ { tokens := l.newline.toList } ++ out, ctx)
    else
      let (line, ctx) := expandLine d macros macroDepthLimit ctx l.tokens
      let (out, ctx) := expandLines d macros ctx none rest
      (line ++ { tokens := l.newline.toList } ++ out, ctx)

/-- The pass that collects macro definitions and expands invocations. -/
def expandMacros (cfg : Config) (ctx : Context) (tokens : List Token) : Output × Context :=
  expandLines cfg.dialect [] ctx none (Line.ofTokens tokens)

end Preprocess

end EightBit
