import EightBit.Isa.Architecture
import EightBit.Token.Scan
import EightBit.Tree.Section

/-!
# Diagnostics

Problems found in a source file, each with its cause and the tokens it concerns.

* `Cause`: every reason for a diagnostic, with its text in `Cause.message`.
* `Diagnostic`: a cause, its severity and the tokens concerned.
-/

namespace EightBit

/-- How grave a problem is. -/
inductive Severity
  | error
  | warning
deriving DecidableEq, Repr

namespace Severity

/-- The name of a severity. -/
def name : Severity → Text
  | error => "error"
  | warning => "warning"

/-- The name of the severity with a given code. -/
def nameOfCode (code : Int) : Text := Text.ofCode "Severity" [error.name, warning.name] code

end Severity

/-- Why a diagnostic was reported. -/
inductive Cause
  /-- The scan stopped at a character. -/
  | lexical (e : LexError)
  | importSyntax
  | importMissing
  | importUnbuilt
  | importBroken
  | equateSyntax
  | equateDuplicate
  | macroSyntax
  | macroNesting
  | macroDuplicate
  | macroLonely
  | macroLonelyEnd
  | macroArity
  | macroTrailingComma
  | macroDepth
  | macroParameter
  | substitutionInvalid
  | unexpectedToken
  | tooManyErrors
  | subLabelOrphan
  /-- A statement stands in a section that does not allow it. -/
  | misplaced (kind : NodeKind) (within : SectionKind)
  | globalSyntax
  | globalMissing
  | setPcSyntax
  | dataSyntax
  /-- A statement is no instruction. -/
  | unrecognized (e : RecognizeError)
  | labelDuplicate
  | labelMissing (name : Text)
deriving DecidableEq, Repr

/-- The text of a cause. -/
def Cause.message : Cause → Text
  | lexical e => e.message
  | importSyntax => "#import syntax"
  | importMissing => "#import file not found"
  | importUnbuilt => "#import file not assembled"
  | importBroken => "#import file has errors"
  | equateSyntax => ".equ syntax"
  | equateDuplicate => ".equ duplicated"
  | macroSyntax => ".macro syntax"
  | macroNesting => ".macro in .macro prohibited"
  | macroDuplicate => ".macro duplicated"
  | macroLonely => ".macro without .endm"
  | macroLonelyEnd => ".endm without .macro"
  | macroArity => "macro argument count mismatch"
  | macroTrailingComma => "trailing comma after last macro parameter"
  | macroDepth => "macro expansion too deep"
  | macroParameter => "unknown macro parameter"
  | substitutionInvalid => "substituted text does not tokenize"
  | unexpectedToken => "unexpected token"
  | tooManyErrors => "too many errors"
  | subLabelOrphan => "sub-label without a parent label"
  | misplaced kind within => kind.name ++ (" not allowed in " : Text) ++ within.directive
  | globalSyntax => ".global syntax"
  | globalMissing => ".global names an undeclared label"
  | setPcSyntax => "* = syntax"
  | dataSyntax => "data directive syntax"
  | unrecognized e => e.message
  | labelDuplicate => "label duplicated"
  | labelMissing name => ("label " : Text) ++ name ++ (" missing" : Text)

/-- What every misplaced statement has in common, whatever its kind and section. -/
def Cause.misplacedMessage : Text := "element not allowed in section"

/-- A problem with the tokens it concerns. -/
structure Diagnostic where
  /-- How grave the problem is. -/
  severity : Severity
  /-- What the problem is. -/
  cause : Cause
  /-- The tokens it concerns. -/
  tokens : List Token
deriving DecidableEq, Repr

namespace Diagnostic

/-- An error. -/
def error (cause : Cause) (tokens : List Token) : Diagnostic := ⟨.error, cause, tokens⟩

/-- A warning. -/
def warning (cause : Cause) (tokens : List Token) : Diagnostic := ⟨.warning, cause, tokens⟩

/-- Whether the problem is an error. -/
def isError (d : Diagnostic) : Bool := d.severity == .error

/-- Where the first token stands. -/
def loc (d : Diagnostic) : Location := Token.firstLoc d.tokens

/-- The source text of the tokens. -/
def text (d : Diagnostic) : Text := Token.join (Token.trim d.tokens)

/-- Location, severity, cause and source text. -/
def message (d : Diagnostic) : Text :=
  let problem := d.severity.name ++ (": " : Text) ++ d.cause.message
  if d.tokens.isEmpty then problem
  else d.loc.message ++ (": " : Text) ++ problem ++ (" '" : Text) ++ d.text ++ ("'" : Text)

end Diagnostic

end EightBit
