import EightBit.Pattern
import EightBit.Tree.Diagnostic
import EightBit.Tree.Node

/-!
# Statements of a line

A line holds any number of labels and then at most one statement.

* `Statement.splitLabels`: the labels of a line and what follows them.
* `Statement.node`: the node that a statement stands for, or what is wrong with it.
-/

namespace EightBit

namespace Statement

/-- The declaration of a label. -/
def labelPattern : Pattern := .tight [.word, .exactly ":"]

/-- The export of a label. -/
def globalPattern : Pattern := .spaced [.word, .word]

/-- The choice of the next address. -/
def setPcPattern : Pattern := .spaced [.exactly "*", .exactly "=", .constant]

/-- The choice of the next address by a directive. -/
def orgPattern : Pattern := .spaced [.folded ".org", .constant]

/-- The labels that a line starts with, each with its colon, and the statement after them. Blanks before
a label and before the statement are left out. -/
def splitLabels : List Token → List (Token × Token) × List Token
  | [] => ([], [])
  | [t] => ([], if t.isSpace then [] else [t])
  | t :: u :: rest =>
    if t.isSpace then splitLabels (u :: rest)
    else if (labelPattern.matchStart (t :: u :: rest)).isSome then
      let (labels, statement) := splitLabels rest
      ((t, u) :: labels, statement)
    else ([], t :: u :: rest)

/-- The parts of a run of tokens between its commas. -/
def splitValues : List Token → List (List Token)
  | [] => [[]]
  | t :: rest =>
    if t.isSymbol "," then [] :: splitValues rest
    else
      match splitValues rest with
      | [] => [[t]]
      | part :: parts => (t :: part) :: parts

/-- The value in one part of a value list: a constant, a word or a readable string. -/
def value (line part : List Token) : Except Diagnostic Operand :=
  match Token.trim part with
  | [t] =>
    if t.kind.isConstant || t.kind == .word then .ok { token := t }
    else if t.kind = .string then
      if t.unquote?.isSome then .ok { token := t } else .error (.error .dataSyntax [t])
    else .error (.error .dataSyntax line)
  | _ => .error (.error .dataSyntax line)

/-- The values of a value list, or what is wrong with the first one that is none. -/
def values (line : List Token) : List (List Token) → Except Diagnostic (List Operand)
  | [] => .ok []
  | part :: parts => do
    let first ← value line part
    let rest ← values line parts
    return first :: rest

/-- The element of a data directive. Without values, one element is reserved. -/
def data (directive : DataDirective) (line args : List Token) : Except Diagnostic Element :=
  if Token.isBlank args then .ok (.reserve directive 1)
  else (values line (splitValues args)).map (.data directive)

/-- The node of a statement whose tokens match a pattern with the token that counts at a place, or a
syntax error. -/
def ofPattern (p : Pattern) (place : Nat) (cause : Cause) (line : List Token) (make : Token → Element) :
    Except Diagnostic Element :=
  match (p.matchExact line).bind (·.tokens[place]?) with
  | some t => .ok (make t)
  | none => .error (.error cause line)

/-- The element that a statement starting with a word stands for. -/
def ofWord (arch : Architecture) (head : Token) (args : List Token) : Except Diagnostic Element :=
  let line := head :: args
  match SectionKind.ofDirective? head.text with
  | some kind =>
    if Token.isBlank args then .ok (.sectionStart kind) else .error (.error .unexpectedToken args)
  | none =>
    if head.is ".global" || head.is ".globl" then
      ofPattern globalPattern 1 .globalSyntax line fun t => .global none { token := t }
    else if head.is ".org" then ofPattern orgPattern 1 .setPcSyntax line .setPc
    else
      match arch.directive? head.text with
      | some directive => data directive line args
      | none =>
        if head.text.head? = some 0x2E then .error (.error .unexpectedToken line)
        else
          match arch.recognize head.text args with
          | .ok (entry, operand) =>
            .ok (.instruction entry.mnemonic entry.mode (operand.map fun t => { token := t }))
          | .error e => .error (.error (.unrecognized e) line)

/-- The element that a statement stands for. -/
def element (arch : Architecture) (head : Token) (args : List Token) : Except Diagnostic Element :=
  if head.isSymbol "*" then ofPattern setPcPattern 2 .setPcSyntax (head :: args) .setPc
  else if head.kind = .word then ofWord arch head args
  else .error (.error .unexpectedToken (head :: args))

/-- The node that a statement under a label stands for. Only instructions and data look up
sub-labels. -/
def node (arch : Architecture) (parent : Option LabelId) (head : Token) (args : List Token) :
    Except Diagnostic Node :=
  (element arch head args).map fun e =>
    { tokens := head :: args
      element := e
      scope := if e.kind = .instruction ∨ e.kind = .initializedData then parent else none }

end Statement

end EightBit
