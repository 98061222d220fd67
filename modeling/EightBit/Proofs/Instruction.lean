import Mathlib
import EightBit.Disassembly
import EightBit.Proofs.Encoding
import EightBit.Proofs.Inert
import EightBit.Proofs.Operand
import EightBit.Proofs.SourceTree
import EightBit.Proofs.Word

/-!
# Instructions of the 6502 and their lines

An instruction with its operand bits has a row at every address. The line of source text of this row is
scanned, preprocessed and parsed to a statement that is encoded to the same row again.

* `Mos6502.CodedInstruction`: an instruction with its operand bits; `CodedInstruction.row` is its row at an
  address.
* `Mos6502.CodedInstruction.readsAll_line`: the line is scanned lexeme by lexeme.
* `Mos6502.CodedInstruction.isInert_line`: the preprocessor leaves it alone.
* `Mos6502.CodedInstruction.line_parse`: it is parsed to the statement of the instruction.
* `Mos6502.CodedInstruction.emit?_of_written`: this statement has the row of the instruction.
-/

namespace EightBit

namespace Mos6502

open Scan

/-! ## Scanning what is shown -/

/-- The digits of a numeral end where no identifier goes on with them. -/
theorem length_hexDigits_append {more rest : Text} (hmore : ∀ c ∈ more, isHexDigit c)
    (hrest : rest.head?.all fun c => !isIdentifier c) :
    ((more ++ rest).takeWhile fun c => isHexDigit c || c == 0x5F).length = more.length := by
  refine length_takeWhile_append (fun c hc => by simp [hmore c hc]) ?_
  cases rest with
  | nil => rfl
  | cons c rest =>
    have hc : isIdentifier c = false := by simpa using hrest
    have hnot : isHexDigit c = false := by
      rw [← Bool.not_eq_true]
      exact fun h => absurd (isIdentifier_of_isHexDigit h) (by simp [hc])
    have hunder : (c == 0x5F) = false := by
      simp only [isIdentifier, Bool.or_eq_false_iff] at hc
      exact hc.2
    simp [hnot, hunder]

/-- A numeral is read back if no identifier goes on with it. -/
theorem reads_numeral (digits n : Nat) {rest : Text} (hrest : rest.head?.all fun c => !isIdentifier c) :
    Reads dialect (numeral digits n) rest := by
  refine ⟨by simp [numeral], fun st => ?_⟩
  obtain ⟨b, more, hdigits⟩ := List.exists_cons_of_ne_nil (Text.hexUpper_ne_nil digits n)
  have hhex : ∀ c ∈ b :: more, isHexDigit c := fun c hc =>
    Text.isHexDigit_of_mem_hexUpper (hdigits ▸ hc)
  have hmore := length_hexDigits_append (fun c hc => hhex c (List.mem_cons_of_mem b hc)) hrest
  -- The rules are tried in order: a binary numeral has another mark, then the mark and all digits are taken.
  have hbin : radix? dialect.binPrefixes isBinDigit (0x24 :: b :: (more ++ rest)) = none :=
    radix?_eq_none (by decide) (by decide) isBinDigit _
  have hradix : radix? dialect.hexPrefixes isHexDigit (0x24 :: b :: (more ++ rest)) =
      some (1 + (1 + more.length)) := by
    have hdollar : ("$" : Text).codePoints = [0x24] := by decide
    have hspelled : spelled? [0x24] (0x24 :: b :: (more ++ rest)) = some 1 := by
      simp [spelled?, Text.firstRune]
    simp only [radix?, dialect]
    rw [List.findSome?_cons, hdollar, hspelled]
    simp [digits?, run?, hhex b List.mem_cons_self, hmore]
  have hblank : isBlank 0x24 = false := by decide
  -- Nothing that would make it a word stands behind it.
  have hapart : apart (0x24 :: b :: (more ++ rest)) (some (1 + (1 + more.length))) =
      some (1 + (1 + more.length)) := by
    have hlen : 1 + (1 + more.length) = (0x24 :: b :: more : Text).length := by
      simp [Nat.add_comm 1]
    rw [hlen]
    exact apart_append (0x24 :: b :: more) hrest
  have hrule : rule? dialect st (0x24 :: b :: (more ++ rest)) = some (.hex, 1 + (1 + more.length)) := by
    have hnone : apart (0x24 :: b :: (more ++ rest)) none = none := rfl
    simp [rule?, run?, newline?, hblank, hbin, hnone, hradix, hapart]
  simp only [numeral, hdigits, List.cons_append, next?, hrule]
  simp [Nat.add_comm 1]

/-- The symbols of operands are read back. -/
theorem reads_symbol {t : Text} (ht : t ∈ (["#", "(", ")", ","] : List Text)) (rest : Text) :
    Reads dialect ⟨.symbol, t⟩ rest := by
  have hall : ∀ t ∈ (["#", "(", ")", ","] : List Text), t.tail = [] ∧ t.head?.any fun b =>
      isPlain dialect b && !isWordStart b && 0x20 < b && b < 0x7F &&
        dialect.multiSymbols.all fun s => s.head?.any (· != b) := by decide
  obtain ⟨htail, hhead⟩ := hall t ht
  cases t with
  | nil => simp at hhead
  | cons b more =>
    obtain rfl : more = [] := htail
    simp only [List.head?_cons, Option.any_some, Bool.and_eq_true, Bool.not_eq_true', decide_eq_true_eq,
      List.all_eq_true] at hhead
    obtain ⟨⟨⟨⟨hplain, hword⟩, hlow⟩, hhigh⟩, hlong⟩ := hhead
    exact Reads.symbol hplain hword hlow hhigh hlong rest

/-- The registers of operands are read back if no word goes on with them. -/
theorem reads_register {t : Text} (ht : t ∈ dialect.registers) {rest : Text}
    (hrest : rest.head?.all fun c => !isWordPart c) : Reads dialect ⟨.register, t⟩ rest := by
  have hall : ∀ t ∈ dialect.registers, (dialect.register? t).isSome ∧ t.tail = [] ∧ t.head?.any fun b =>
      isPlain dialect b && isWordStart b := by decide
  obtain ⟨hregister, htail, hhead⟩ := hall t ht
  cases t with
  | nil => simp at hhead
  | cons b more =>
    obtain rfl : more = [] := htail
    simp only [List.head?_cons, Option.any_some, Bool.and_eq_true] at hhead
    have hword := Reads.word [] hhead.1 hhead.2 (by simp) hrest
    rwa [if_pos hregister] at hword

/-- Mnemonics are words and name no register. -/
theorem Operation.name_isWord (op : Operation) :
    (op.name.head?.any fun b => isPlain dialect b && isWordStart b) ∧ op.name.tail.all isWordPart ∧
      (dialect.register? op.name).isNone := by
  cases op <;> decide

/-- A mnemonic is read back if no word goes on with it. -/
theorem Operation.reads_name (op : Operation) {rest : Text} (hrest : rest.head?.all fun c => !isWordPart c) :
    Reads dialect ⟨.word, op.name⟩ rest := by
  obtain ⟨hhead, htail, hregister⟩ := op.name_isWord
  generalize op.name = name at *
  cases name with
  | nil => simp at hhead
  | cons b more =>
    simp only [List.head?_cons, Option.any_some, Bool.and_eq_true] at hhead
    have hword := Reads.word more hhead.1 hhead.2 (List.all_eq_true.1 htail) hrest
    rwa [Option.isSome_eq_false_iff.2 hregister] at hword

namespace Addressing

theorem readsAll_opening (a : Addressing) {rest : Text} (hrest : rest.head?.all fun c => !isWordPart c) :
    ReadsAll dialect a.opening rest := by
  cases a with
  | acc => exact ⟨reads_register (by decide) hrest, trivial⟩
  | imm => exact ⟨reads_symbol (by decide) _, trivial⟩
  | idx => exact ⟨reads_symbol (by decide) _, trivial⟩
  | idy => exact ⟨reads_symbol (by decide) _, trivial⟩
  | ind => exact ⟨reads_symbol (by decide) _, trivial⟩
  | _ => trivial

theorem readsAll_closing (a : Addressing) {rest : Text} (hrest : rest.head?.all fun c => !isWordPart c) :
    ReadsAll dialect a.closing rest := by
  cases a with
  | idx =>
    exact ⟨reads_symbol (by decide) _, reads_register (by decide) rfl, reads_symbol (by decide) _, trivial⟩
  | idy =>
    exact ⟨reads_symbol (by decide) _, reads_symbol (by decide) _, reads_register (by decide) hrest, trivial⟩
  | ind => exact ⟨reads_symbol (by decide) _, trivial⟩
  | zpx => exact ⟨reads_symbol (by decide) _, reads_register (by decide) hrest, trivial⟩
  | abx => exact ⟨reads_symbol (by decide) _, reads_register (by decide) hrest, trivial⟩
  | zpy => exact ⟨reads_symbol (by decide) _, reads_register (by decide) hrest, trivial⟩
  | aby => exact ⟨reads_symbol (by decide) _, reads_register (by decide) hrest, trivial⟩
  | _ => trivial

/-- A shown operand is read back at the end of a line. -/
theorem readsAll_lexemes (a : Addressing) (n : Nat) (rest : Text) :
    ReadsAll dialect (a.lexemes n) (0x0A :: rest) := by
  have hnewline : ((0x0A :: rest : Text).head?.all fun c => !isWordPart c) := rfl
  refine readsAll_append (readsAll_append ?_ ?_) (a.readsAll_closing hnewline)
  · refine a.readsAll_opening ?_
    cases a <;> rfl
  · have hnext : ((a.closing.flatMap Lexeme.text ++ 0x0A :: rest).head?.all fun c => !isIdentifier c) := by
      cases a <;> rfl
    rw [shownNumeral?]
    cases a.operand with
    | none => trivial
    | some k => exact ⟨reads_numeral _ _ hnext, trivial⟩

end Addressing

/-! ## Instructions at addresses -/

/-- An instruction with its operand bits. -/
structure CodedInstruction where
  /-- What it does. -/
  op : Operation
  /-- The addressing mode. -/
  addressing : Addressing
  /-- The opcode. -/
  opcode : UInt8
  /-- The operand bits. -/
  operand : UInt64
  /-- The instruction is in the table. -/
  mem_table : ⟨op.name, addressing.mode, opcode⟩ ∈ table.entries
  /-- The operand bits fit into the bytes after the opcode. -/
  operand_lt : operand.toNat < 2 ^ (8 * (addressing.length - 1))

namespace CodedInstruction

/-- The number of bytes. -/
def length (i : CodedInstruction) : Nat := i.addressing.length

/-- The bytes. -/
def bytes (i : CodedInstruction) : List UInt8 := i.opcode :: architecture.encode i.operand (i.length - 1)

/-- The row at an address, without labels and a place in a source. -/
def row (i : CodedInstruction) (addr : UInt64) : Row where
  address := addr
  mnemonic := i.op.name
  mode := some i.addressing.mode
  operand := i.addressing.mode.render i.operand (addr + i.length.toUInt64) architecture.addressMask
  bytes := i.bytes

/-- The number that is shown for the operand at an address. -/
def shown (i : CodedInstruction) (addr : UInt64) : Nat :=
  (i.addressing.shown i.operand (addr + i.length.toUInt64) architecture.addressMask).toNat

/-- The lexemes of the line of the row at an address, without the newline. -/
def statement (i : CodedInstruction) (addr : UInt64) : List Lexeme :=
  ⟨.whitespace, [0x20]⟩ :: ⟨.word, i.op.name⟩ :: i.addressing.arguments (i.shown addr)

/-- The lexemes of the line of the row at an address. -/
def line (i : CodedInstruction) (addr : UInt64) : List Lexeme := i.statement addr ++ [⟨.newline, [0x0A]⟩]

theorem length_pos (i : CodedInstruction) : 0 < i.length := by
  rw [length]
  cases i.addressing <;> decide

theorem length_le (i : CodedInstruction) : i.length ≤ 3 := by
  rw [length]
  cases i.addressing <;> decide

theorem length_bytes (i : CodedInstruction) : i.bytes.length = i.length := by
  have hpos := i.length_pos
  simp only [bytes, List.length_cons, Architecture.encode, ByteOrder.length_encode]
  omega

theorem shown_lt (i : CodedInstruction) (addr : UInt64) :
    i.shown addr < 2 ^ (8 * i.addressing.shownSize) := by
  have hlt := i.operand_lt
  unfold shown Addressing.shown
  split_ifs with hrel
  · have hmask := Word.toNat_and_mask (addr + i.length.toUInt64 +
      UInt64.ofInt (Word.signExtend i.operand 1)) (n := 16) (by decide)
    rw [hrel]
    exact hmask ▸ Nat.mod_lt _ (by decide)
  · refine lt_of_lt_of_le hlt (Nat.pow_le_pow_right (by decide) ?_)
    cases i.addressing <;> decide

/-! ## The line as text -/

/-- The line of an instruction is a blank, the text of its row and a newline. -/
theorem text_line (i : CodedInstruction) (addr : UInt64) :
    (i.line addr).flatMap Lexeme.text = 0x20 :: (i.row addr).text ++ [0x0A] := by
  have hoperand : (i.row addr).operand =
      (i.addressing.lexemes (i.shown addr)).flatMap Lexeme.text := i.addressing.render_mode _ _ _
  have hblank : (" " : Text) = [0x20] := by decide
  -- The text of a row leaves out the blank where the operand is empty, which is the implied mode.
  have hempty : (i.row addr).operand.isEmpty = decide (i.addressing = .imp) := by
    rw [hoperand]
    cases i.addressing <;> simp [Addressing.lexemes, Addressing.opening, Addressing.closing,
      Addressing.shownNumeral?, Addressing.operand, numeral]
    decide
  have hmnemonic : (i.row addr).mnemonic = i.op.name := rfl
  rw [Row.text, hempty, hmnemonic]
  simp only [line, statement, Addressing.arguments, decide_eq_true_eq]
  split_ifs
  · simp
  · simp [hoperand, hblank]

/-- The line of an instruction is scanned lexeme by lexeme. -/
theorem readsAll_line (i : CodedInstruction) (addr : UInt64) (rest : Text) :
    ReadsAll dialect (i.line addr) rest := by
  have hnewline : ReadsAll dialect [⟨.newline, [0x0A]⟩] rest := ⟨Reads.newline _, trivial⟩
  have harguments :
      ReadsAll dialect (i.addressing.arguments (i.shown addr) ++ [⟨.newline, [0x0A]⟩]) rest := by
    refine readsAll_append ?_ hnewline
    unfold Addressing.arguments
    split_ifs with himp
    · trivial
    · refine ⟨Reads.blank ?_, i.addressing.readsAll_lexemes _ rest⟩
      revert himp
      cases i.addressing <;> first | exact fun himp => absurd rfl himp | exact fun _ => rfl
  refine ⟨Reads.blank ?_, i.op.reads_name ?_, harguments⟩
  · cases i.op <;> rfl
  · unfold Addressing.arguments
    split_ifs <;> rfl

end CodedInstruction

/-! ## The preprocessor leaves the lines alone -/

/-- Whether no pass of the preprocessor acts on a lexeme that is not defined. -/
def isPassive (l : Lexeme) : Bool :=
  !l.text.equalFold "import" && (l.kind != .symbol || l.text != dialect.comment)
    && Preprocess.directives.all (fun w => !l.text.equalFold w)

/-- Whether the preprocessor leaves a lexeme alone if nothing but the settings of the assembler is
defined. -/
def isInert (l : Lexeme) : Bool :=
  isPassive l && (l.kind != .word || !(["ORIGIN", "ADDRESS_WIDTH"] : List Text).contains l.text)
    && (Operator.ofText? l.text).isNone

theorem passive_of_isPassive {cfg : Preprocess.Config} (hdialect : cfg.dialect = dialect) {t : Token}
    (h : isPassive t.lexeme) (hdefines : t.kind = .word → cfg.defines.lookup t.text = none) :
    Preprocess.Passive cfg t := by
  simp only [isPassive, Token.lexeme, Bool.and_eq_true, Bool.or_eq_true, Bool.not_eq_true', bne_iff_ne,
    List.all_eq_true] at h
  obtain ⟨⟨himport, hcomment⟩, hdirectives⟩ := h
  refine ⟨himport, ?_, hdirectives, hdefines⟩
  rw [Token.isSymbol, hdialect]
  rcases hcomment with hkind | htext
  · simp [hkind]
  · simp [htext]

theorem isInert_numeral (digits n : Nat) : isInert (numeral digits n) := by
  -- No directive and no operator starts with the mark of a numeral.
  have hfold : ∀ w ∈ ("import" : Text) :: Preprocess.directives,
      w.codePoints.head?.all fun c => CodePoint.fold (0x24 : UInt8).toNat != CodePoint.fold c := by decide
  have hfalse : ∀ w ∈ ("import" : Text) :: Preprocess.directives,
      Text.equalFold (0x24 :: Text.hexUpper digits n) w = false := fun w hw =>
    Text.equalFold_cons_eq_false (by decide) (hfold w hw) _
  have hoperator : Operator.ofText? (0x24 :: Text.hexUpper digits n) = none := by
    have hheads : ∀ op ∈ Operator.all, op.text.head? ≠ some 0x24 := by decide
    rw [Operator.ofText?, List.find?_eq_none]
    intro op hop heq
    exact hheads op hop (by rw [beq_iff_eq.1 heq]; rfl)
  simp only [isInert, isPassive, numeral, hfalse _ List.mem_cons_self, hoperator]
  simpa using fun w hw => hfalse w (List.mem_cons_of_mem _ hw)

theorem Operation.isInert_name (op : Operation) : isInert ⟨.word, op.name⟩ := by
  cases op <;> decide

/-- What holds of the parts of a line holds of all its lexemes. -/
theorem CodedInstruction.forall_statement {P : Lexeme → Prop} (i : CodedInstruction) (addr : UInt64)
    (hblank : P ⟨.whitespace, [0x20]⟩) (hname : P ⟨.word, i.op.name⟩)
    (hopening : ∀ l ∈ i.addressing.opening, P l) (hnumeral : ∀ digits n, P (numeral digits n))
    (hclosing : ∀ l ∈ i.addressing.closing, P l) : ∀ l ∈ i.statement addr, P l := by
  have hshown : ∀ l ∈ i.addressing.shownNumeral? (i.shown addr), P l := by
    intro l hl
    obtain ⟨_, -, rfl⟩ := Option.map_eq_some_iff.1 hl
    exact hnumeral _ _
  have harguments : ∀ l ∈ i.addressing.arguments (i.shown addr), P l := by
    intro l hl
    unfold Addressing.arguments at hl
    split_ifs at hl
    · cases hl
    · simp only [Addressing.lexemes, List.mem_cons, List.mem_append, Option.mem_toList] at hl
      rcases hl with rfl | (hl | hl) | hl
      · exact hblank
      · exact hopening l hl
      · exact hshown l hl
      · exact hclosing l hl
  intro l hl
  simp only [statement, List.mem_cons] at hl
  rcases hl with rfl | rfl | hl
  · exact hblank
  · exact hname
  · exact harguments l hl

/-- The preprocessor leaves the line of an instruction alone. -/
theorem CodedInstruction.isInert_line (i : CodedInstruction) (addr : UInt64) :
    ∀ l ∈ i.line addr, isInert l := by
  have hstatement := i.forall_statement (P := fun l => isInert l) addr (by decide) i.op.isInert_name
    (by cases i.addressing <;> decide) isInert_numeral (by cases i.addressing <;> decide)
  intro l hl
  rcases List.mem_append.1 hl with hl | hl
  · exact hstatement l hl
  · rw [List.mem_singleton.1 hl]
    decide

/-- A statement has no newline. -/
theorem CodedInstruction.kind_statement (i : CodedInstruction) (addr : UInt64) :
    ∀ l ∈ i.statement addr, l.kind ≠ .newline :=
  i.forall_statement addr (by decide) (by simp) (by cases i.addressing <;> decide)
    (fun digits n => by simp [numeral]) (by cases i.addressing <;> decide)

/-! ## The statement of a line -/

end Mos6502

/-- A run of tokens that ends in no blank keeps its end. -/
theorem Token.trimRight_eq_self {tokens : List Token}
    (h : (tokens.map Token.lexeme).getLast?.all fun l => !l.kind.isSpace) : trimRight tokens = tokens := by
  rcases tokens.eq_nil_or_concat with rfl | ⟨before, last, rfl⟩
  · rfl
  · have hspace : last.isSpace = false := by simpa [Token.lexeme, Token.isSpace] using h
    simp [trimRight, hspace]

/-- A label is a word with a colon right behind it. -/
theorem Statement.splitLabels_of_ne_colon {head next : Token} (hhead : head.isSpace = false)
    (hnext : next.text ≠ (":" : Text)) (rest : List Token) :
    splitLabels (head :: next :: rest) = ([], head :: next :: rest) := by
  have hlabel : labelPattern.matchStart (head :: next :: rest) = none := by
    simp [Pattern.matchStart, labelPattern, Pattern.tight, Pattern.take?, Pattern.ignored,
      Component.exactly, Component.accepts, hnext]
  simp [splitLabels, hhead, hlabel]

namespace Mos6502

/-- Mnemonics are no directives. -/
theorem Operation.name_not_directive (op : Operation) :
    SectionKind.ofDirective? op.name = none ∧ op.name.equalFold ".global" = false ∧
      op.name.equalFold ".globl" = false ∧ op.name.equalFold ".org" = false ∧
      (data.find? (·.name.equalFold op.name)) = none ∧ op.name.head? ≠ some 0x2E := by
  cases op <;> decide

namespace CodedInstruction

/-- A statement that is the line of an instruction at an address. -/
def Written (i : CodedInstruction) (addr : UInt64) (e : Element) : Prop :=
  ∃ tok : Option Token, e = .instruction i.op.name i.addressing.mode (tok.map fun t => { token := t }) ∧
    tok.map Token.lexeme = i.addressing.shownNumeral? (i.shown addr)

/-- The words of a line are the statement of its instruction. -/
theorem ofWord_eq (i : CodedInstruction) (addr : UInt64) {head : Token} {args : List Token}
    (hhead : head.text = i.op.name) (hargs : args.map Token.lexeme = i.addressing.arguments (i.shown addr)) :
    ∃ e, Statement.ofWord architecture head args = .ok e ∧ i.Written addr e := by
  obtain ⟨hsection, hglobal, hglobl, horg, hdata, hdot⟩ := i.op.name_not_directive
  obtain ⟨tok, hrecognize, htok⟩ := recognize_shown i.mem_table (i.shown_lt addr) hargs
  refine ⟨_, ?_, tok, rfl, htok⟩
  have hdirective : architecture.directive? i.op.name = none := hdata
  simp [Statement.ofWord, Token.is, hhead, hsection, hglobal, hglobl, horg, hdirective, hdot, hrecognize]

theorem trimRight_statement (i : CodedInstruction) (addr : UInt64) {tokens : List Token}
    (h : tokens.map Token.lexeme = i.statement addr) : Token.trimRight tokens = tokens := by
  have hlast : ((i.statement addr).getLast?.all fun l => !l.kind.isSpace) := by
    unfold statement
    cases i.addressing <;> rfl
  exact Token.trimRight_eq_self (h ▸ hlast)

/-- The line of an instruction has no labels. -/
theorem splitLabels_statement (i : CodedInstruction) (addr : UInt64) {blank head : Token} {args : List Token}
    (hblank : blank.kind = .whitespace) (hhead : head.kind = .word)
    (hargs : args.map Token.lexeme = i.addressing.arguments (i.shown addr)) :
    Statement.splitLabels (blank :: head :: args) = ([], head :: args) := by
  have hspace : blank.isSpace = true := by rw [Token.isSpace, hblank]; rfl
  have hword : head.isSpace = false := by rw [Token.isSpace, hhead]; rfl
  rw [Statement.splitLabels, if_pos hspace]
  unfold Addressing.arguments at hargs
  split_ifs at hargs
  · obtain rfl : args = [] := List.map_eq_nil_iff.1 hargs
    simp [Statement.splitLabels, hword]
  · obtain ⟨next, rest, rfl, hnext, -⟩ := List.map_eq_cons_iff.1 hargs
    refine Statement.splitLabels_of_ne_colon hword ?_ rest
    rw [show next.text = [0x20] from congrArg Lexeme.text hnext]
    decide

/-- The line of an instruction is parsed to its statement. -/
theorem line_parse (i : CodedInstruction) (addr : UInt64) {tokens : List Token}
    (h : tokens.map Token.lexeme = i.statement addr) (s : Parse) (hparent : s.parent = none) :
    ∃ n : Node, s.line architecture tokens = s.add n ∧ i.Written addr n.element ∧ n.scope = none ∧
      n.address = none := by
  have htrim := i.trimRight_statement addr h
  obtain ⟨blank, more, rfl, hblank, hmore⟩ := List.map_eq_cons_iff.1 h
  obtain ⟨head, args, rfl, hhead, hargs⟩ := List.map_eq_cons_iff.1 hmore
  obtain ⟨e, he, hwritten⟩ := i.ofWord_eq addr (congrArg Lexeme.text hhead) hargs
  have hkind : head.kind = .word := congrArg Lexeme.kind hhead
  have hsplit := i.splitLabels_statement addr (congrArg Lexeme.kind hblank) hkind hargs
  have helement : Statement.element architecture head args = .ok e := by
    simp [Statement.element, Token.isSymbol, hkind, he]
  refine ⟨{ tokens := head :: args, element := e }, ?_, hwritten, rfl, rfl⟩
  simp only [Parse.line, htrim, hsplit, List.foldl_nil, Statement.node, helement, hparent, ite_self]
  rfl

/-! ## The row of the statement -/

/-- The operand bits of a shown number are those that it was shown for. -/
theorem operandBits_shown (i : CodedInstruction) (addr : UInt64) {enc : Encoding}
    (hwrap : enc.wrapBranches = true) :
    enc.operandBits i.addressing.mode (addr + i.length.toUInt64) (UInt64.ofInt (i.shown addr)) =
      .ok i.operand := by
  have hlt := i.operand_lt
  rw [shown, Word.ofInt_toNat, Encoding.operandBits, Addressing.shown]
  by_cases hrel : i.addressing = .rel
  · -- The distance is cut out of the difference of addresses, wherever the target wrapped around.
    have hsize : i.addressing.mode.operandSize = 1 := by rw [hrel]; rfl
    have hrelative : i.addressing.mode.relative = true := by rw [hrel]; rfl
    have hbyte : i.operand.toNat < 2 ^ 8 := by simpa [hrel, Addressing.length] using hlt
    simp only [hrelative, hwrap, hsize, if_pos hrel]
    exact congrArg Except.ok (Word.distance_and_mask hbyte _)
  · have hrelative : i.addressing.mode.relative = false := by
      simpa [Addressing.mode] using hrel
    have hsize : 8 * i.addressing.mode.operandSize < 64 := by
      cases i.addressing <;> decide
    simp only [hrelative, if_neg hrel]
    exact congrArg Except.ok (Word.and_mask_of_lt hsize hlt)

theorem rawOperand_of_written (i : CodedInstruction) (addr : UInt64) {enc : Encoding}
    (harch : enc.arch = architecture) (hwrap : enc.wrapBranches = true) {tok : Option Token}
    (htok : tok.map Token.lexeme = i.addressing.shownNumeral? (i.shown addr)) :
    enc.rawOperand i.addressing.mode (addr + i.length.toUInt64) (tok.map fun t => { token := t }) =
      .ok i.operand := by
  unfold Encoding.rawOperand
  cases hoperand : i.addressing.operand with
  | none =>
    -- Without an operand there is no byte after the opcode, so that the operand bits are zero.
    have hlen : i.addressing.length - 1 = 0 := by
      revert hoperand
      cases i.addressing <;> simp [Addressing.operand, Addressing.length]
    have hzero : i.operand = 0 := UInt64.toNat_inj.1 (by simpa [hlen] using i.operand_lt)
    rw [if_neg (by simp [Addressing.mode, hoperand]), hzero]
  | some k =>
    have hsize : 0 < i.addressing.mode.operandSize := by
      revert hoperand
      cases i.addressing <;> simp [Addressing.operand, Addressing.mode, Addressing.length, Mode.operandSize]
    rw [Addressing.shownNumeral?, hoperand, Option.map_some, Option.map_eq_some_iff] at htok
    obtain ⟨t, rfl, ht⟩ := htok
    have hkind : t.kind = .hex := congrArg Lexeme.kind ht
    have hsmall : i.shown addr < 2 ^ 63 :=
      lt_of_lt_of_le (i.shown_lt addr) (Nat.pow_le_pow_right (by decide)
        (by have := i.addressing.shownSize_cases; omega))
    have hvalue : enc.value { token := t } = .ok (UInt64.ofInt (i.shown addr)) := by
      have hdialect : enc.arch.dialect = dialect := by rw [harch]; simp only [architecture]
      have hnumeral := Component.valueIn_eq
        (u := (numeral (2 * i.addressing.shownSize) (i.shown addr)).token)
        ht (by simp [hkind]) dialect
      simp [Encoding.value, Operand.isWord, hkind, hdialect, hnumeral, valueIn_numeral _ hsmall]
    rw [if_pos ⟨by simp [Addressing.mode, hoperand], hsize⟩]
    simp only [Option.map_some, hvalue]
    exact i.operandBits_shown addr hwrap

/-- The statement of an instruction has the row of the instruction. -/
theorem emit?_of_written (i : CodedInstruction) {n : Node} (hwritten : i.Written n.addr n.element)
    {enc : Encoding} (harch : enc.arch = architecture) (hwrap : enc.wrapBranches = true) :
    enc.emit? n = some (.ok ⟨{ i.row n.addr with loc := n.loc, labels := enc.labels.namesAt n.addr },
      .program⟩) := by
  obtain ⟨tok, helement, htok⟩ := hwritten
  have hentry : enc.arch.table.lookup? i.op.name i.addressing.mode =
      some ⟨i.op.name, i.addressing.mode, i.opcode⟩ := by
    rw [harch, table_architecture]
    exact lookup?_of_mem_table i.mem_table
  have hrow : enc.instruction n.addr i.op.name i.addressing.mode (tok.map fun t => { token := t }) =
      .ok (i.row n.addr) := by
    have hraw : enc.rawOperand i.addressing.mode (n.addr + i.addressing.mode.length.toUInt64)
        (tok.map fun t => { token := t }) = .ok i.operand := i.rawOperand_of_written n.addr harch hwrap htok
    rw [Encoding.instruction_eq hentry, hraw, harch]
    rfl
  simp only [Encoding.emit?, helement, hrow]

end CodedInstruction

end Mos6502

end EightBit
