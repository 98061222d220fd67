import EightBit.Isa.Table

/-!
# 6502 addressing modes

The dialect of 6502 sources and the thirteen addressing modes by priority: the forms with brackets and
index registers come before the plain ones, and one-byte addresses before two-byte ones.

* `Mos6502.dialect`: the lexical conventions.
* `Mos6502.Addressing`: the addressing modes, and `Addressing.mode` their definitions.
-/

namespace EightBit.Mos6502

/-- The lexical conventions of 6502 sources. -/
def dialect : Dialect where
  hexPrefixes := ["$", "0x"]
  binPrefixes := ["%", "0b"]
  comment := ";"
  subLabel := "."
  registers := ["A", "X", "Y"]
  caseFold := true
  multiSymbols := ["<<", ">>"]

/-- An addressing mode of the 6502. -/
inductive Addressing
  /-- No operand. -/
  | imp
  /-- The accumulator. -/
  | acc
  /-- A byte in the instruction. -/
  | imm
  /-- Through a zero page pointer found by adding X. -/
  | idx
  /-- Through a zero page pointer, adding Y afterwards. -/
  | idy
  /-- Through a pointer anywhere. -/
  | ind
  /-- Zero page, adding X. -/
  | zpx
  /-- Zero page, adding Y. -/
  | zpy
  /-- Zero page. -/
  | zpg
  /-- An address, adding X. -/
  | abx
  /-- An address, adding Y. -/
  | aby
  /-- An address. -/
  | abs
  /-- A distance from the next instruction. -/
  | rel
deriving DecidableEq, Repr

namespace Addressing

/-- The addressing modes by priority. -/
def all : List Addressing := [imp, acc, imm, idx, idy, ind, zpx, zpy, zpg, abx, aby, abs, rel]

/-- A constant of one byte that is not negative. -/
def zeroPage : Component := .fitting dialect 1 true

/-- A constant of one byte. -/
def immediate : Component := .fitting dialect 1 false

/-- A constant of two bytes that is not negative, or a word that may name a label. -/
def address : Component := .fittingOrWord dialect 2 true

/-- A register. -/
def register (name : Text) : Component := .register dialect [name]

/-- The ways to write an operand. -/
def written : Addressing → List (List Component)
  | imp => [[]]
  | acc => [[register "A"], []]
  | imm => [[.exactly "#", immediate]]
  | idx => [[.exactly "(", zeroPage, .exactly ",", register "X", .exactly ")"]]
  | idy => [[.exactly "(", zeroPage, .exactly ")", .exactly ",", register "Y"]]
  | ind => [[.exactly "(", address, .exactly ")"]]
  | zpx => [[zeroPage, .exactly ",", register "X"]]
  | zpy => [[zeroPage, .exactly ",", register "Y"]]
  | zpg => [[zeroPage]]
  | abx => [[address, .exactly ",", register "X"]]
  | aby => [[address, .exactly ",", register "Y"]]
  | abs => [[address]]
  | rel => [[address]]

/-- The short name of a mode. -/
def name : Addressing → Text
  | imp => "imp"
  | acc => "acc"
  | imm => "imm"
  | idx => "idx"
  | idy => "idy"
  | ind => "ind"
  | zpx => "zpx"
  | zpy => "zpy"
  | zpg => "zpg"
  | abx => "abx"
  | aby => "aby"
  | abs => "abs"
  | rel => "rel"

/-- The component of the pattern that holds the operand. -/
def operand : Addressing → Option Nat
  | imp | acc => none
  | imm | idx | idy | ind => some 1
  | zpx | zpy | zpg | abx | aby | abs | rel => some 0

/-- The number of bytes of an instruction. -/
def length : Addressing → Nat
  | imp | acc => 1
  | imm | idx | idy | zpx | zpy | zpg | rel => 2
  | ind | abx | aby | abs => 3

/-- How an operand is shown. -/
def format : Addressing → Text
  | imp => ""
  | acc => "A"
  | imm => "#$%02X"
  | idx => "($%02X,X)"
  | idy => "($%02X),Y"
  | ind => "($%04X)"
  | zpx => "$%02X,X"
  | zpy => "$%02X,Y"
  | zpg => "$%02X"
  | abx => "$%04X,X"
  | aby => "$%04X,Y"
  | abs => "$%04X"
  | rel => "$%04X"

/-- The definition of an addressing mode. -/
def mode (a : Addressing) : Mode where
  name := a.name
  patterns := a.written.map Pattern.spaced
  operand := a.operand
  length := a.length
  relative := a == rel
  format := a.format

/-- The addressing mode that a definition belongs to. -/
def ofMode? (m : Mode) : Option Addressing := all.find? fun a => a.mode == m

/-- The definitions by priority. -/
def modes : List Mode := all.map mode

@[simp] theorem ofMode?_mode (a : Addressing) : ofMode? a.mode = some a := by
  cases a <;> decide

end Addressing

end EightBit.Mos6502
