import Mathlib
import EightBit.Proofs.ByteSize
import EightBit.Proofs.Numeral
import EightBit.Proofs.Pattern
import EightBit.Proofs.Table

/-!
# Operands of the 6502

How an operand is shown, lexeme by lexeme, and that the mode and the operand are recognised from what is
shown: the digits of a numeral tell one byte from two, and the only two modes that are shown alike, absolute
and relative ones, belong to different instructions.

* `Mos6502.Addressing.lexemes`: the lexemes of a shown operand.
* `Mos6502.Addressing.render_mode`: an operand is shown by these lexemes.
* `Mos6502.recognize_shown`: an instruction is recognised from its shown operand.
-/

namespace EightBit.Mos6502

/-- A hexadecimal numeral as a lexeme. -/
def numeral (digits n : Nat) : Lexeme := ⟨.hex, 0x24 :: Text.hexUpper digits n⟩

/-! ## Values of numerals -/

theorem without_hexUpper (digits n : Nat) :
    Text.without 0x5F (Text.hexUpper digits n) = Text.hexUpper digits n := by
  rw [Text.without, List.filter_eq_self]
  intro b hb
  have hdigit := Text.isHexDigit_of_mem_hexUpper hb
  rw [bne_iff_ne]
  rintro rfl
  exact absurd hdigit (by decide)

theorem toInt?_hexUpper (digits n : Nat) : Text.toInt? 16 (Text.hexUpper digits n) = some (n : Int) := by
  have hread := Text.read?_hexUpper digits n
  -- The first two cases are signs, which are no digits.
  unfold Text.toInt?
  split
  next rest heq =>
    exact absurd (Text.isHexDigit_of_mem_hexUpper (heq ▸ List.mem_cons_self)) (by decide)
  next rest heq =>
    exact absurd (Text.isHexDigit_of_mem_hexUpper (heq ▸ List.mem_cons_self)) (by decide)
  next =>
    rw [hread]
    rfl

theorem digitsIn_numeral (digits n : Nat) :
    (numeral digits n).token.digitsIn dialect = Text.hexUpper digits n := by
  have hlen : 0 < (Text.hexUpper digits n).length := List.length_pos_iff.2 (Text.hexUpper_ne_nil _ _)
  have hstrip : Token.stripRadix dialect.hexPrefixes (0x24 :: Text.hexUpper digits n) =
      Text.hexUpper digits n := by
    have hdollar : ("$" : Text) = [0x24] := by decide
    simp only [Token.stripRadix, dialect, hdollar]
    rw [List.find?_cons_of_pos (by simp [hlen, Text.equalFold_refl])]
    rfl
  rw [Token.digitsIn]
  simp only [Lexeme.token, numeral, Token.radix, hstrip, without_hexUpper]

/-- The value of a numeral. -/
theorem valueIn_numeral (digits : Nat) {n : Nat} (hn : n < 2 ^ 63) :
    (numeral digits n).token.valueIn dialect = .ok (n : Int) := by
  have hint : isInt64 (n : Int) = true := by
    simp only [isInt64, Bool.and_eq_true, decide_eq_true_eq]
    omega
  have hread : ((numeral digits n).token.digitsIn dialect).toInt? 16 = some (n : Int) := by
    rw [digitsIn_numeral, toInt?_hexUpper]
  unfold Token.valueIn
  simp only [numeral, Lexeme.token, Token.radix] at hread ⊢
  simp only [hread, hint, if_true]

theorem fitsBytes_natCast {n size : Nat} (hn : n < 2 ^ (8 * size)) : fitsBytes (n : Int) size = true := by
  have hpos : ¬ (n : Int) < 0 := by omega
  simp only [fitsBytes, hpos, if_false, decide_eq_true_eq, Int.pow_eq]
  exact_mod_cast hn

/-- A number of one or two bytes takes no more than these. -/
theorem byteSize_le {size n : Nat} (hsize : size = 1 ∨ size = 2) (hn : n < 2 ^ (8 * size)) :
    byteSize (n : Int) ≤ size :=
  (byteSize_le_iff n (by omega) (by omega)).2 (fitsBytes_natCast hn)

/-- The size of a numeral is that of its digits. -/
theorem sizeIn_numeral {size n : Nat} (hsize : size = 1 ∨ size = 2) (hn : n < 2 ^ (8 * size)) :
    (numeral (2 * size) n).token.sizeIn dialect = .ok size := by
  have hsmall : n < 2 ^ 63 := lt_of_lt_of_le hn (Nat.pow_le_pow_right (by decide) (by omega))
  have hlen : (Text.hexUpper (2 * size) n).length = 2 * size := by
    refine Text.length_hexUpper (by omega) ?_
    rwa [show (16 : Nat) = 2 ^ 4 from rfl, ← pow_mul, ← mul_assoc]
  have hwritten : (numeral (2 * size) n).token.writtenSize dialect = size := by
    have hkind : (numeral (2 * size) n).token.kind = .hex := rfl
    rw [Token.writtenSize, hkind]
    simp only [digitsIn_numeral, hlen]
    omega
  rw [Token.sizeIn, valueIn_numeral _ hsmall, hwritten]
  exact congrArg Except.ok (max_eq_right (byteSize_le hsize hn))

namespace Addressing

/-! ## How an operand is shown -/

/-- The number of bytes that the numeral of a shown operand spans. -/
def shownSize : Addressing → Nat
  | ind | abx | aby | abs | rel => 2
  | _ => 1

theorem shownSize_cases (a : Addressing) : a.shownSize = 1 ∨ a.shownSize = 2 := by
  cases a <;> decide

/-- What stands before the numeral. -/
def opening : Addressing → List Lexeme
  | acc => [⟨.register, "A"⟩]
  | imm => [⟨.symbol, "#"⟩]
  | idx | idy | ind => [⟨.symbol, "("⟩]
  | _ => []

/-- What stands after the numeral. -/
def closing : Addressing → List Lexeme
  | idx => [⟨.symbol, ","⟩, ⟨.register, "X"⟩, ⟨.symbol, ")"⟩]
  | idy => [⟨.symbol, ")"⟩, ⟨.symbol, ","⟩, ⟨.register, "Y"⟩]
  | ind => [⟨.symbol, ")"⟩]
  | zpx | abx => [⟨.symbol, ","⟩, ⟨.register, "X"⟩]
  | zpy | aby => [⟨.symbol, ","⟩, ⟨.register, "Y"⟩]
  | _ => []

/-- The numeral of a shown operand. -/
def shownNumeral? (a : Addressing) (n : Nat) : Option Lexeme :=
  a.operand.map fun _ => numeral (2 * a.shownSize) n

/-- The lexemes of a shown operand. -/
def lexemes (a : Addressing) (n : Nat) : List Lexeme :=
  a.opening ++ (a.shownNumeral? n).toList ++ a.closing

/-- The number that is shown for the operand bits of an instruction: a distance is shown as the address that
it leads to. -/
def shown (a : Addressing) (value next mask : UInt64) : UInt64 :=
  if a = rel then (next + UInt64.ofInt (Word.signExtend value 1)) &&& mask else value

/-- The placeholder for a hexadecimal number of some digits. -/
def placeholder (digits : Nat) : Template.Placeholder := { zero := true, width := digits, verb := 0x58 }

theorem render_placeholder (digits n : Nat) :
    Template.Argument.render [] (placeholder digits) (.number n) = Text.hexUpper digits n := by
  have hdecimal : ¬ ((placeholder digits).verb = Text.byteOf 'd' ∨
      (placeholder digits).verb = Text.byteOf 'v') := by
    change ¬ ((0x58 : UInt8) = Text.byteOf 'd' ∨ (0x58 : UInt8) = Text.byteOf 'v')
    decide
  have hhex : (placeholder digits).verb = Text.byteOf 'X' := by
    change (0x58 : UInt8) = Text.byteOf 'X'
    decide
  have hsign : ¬ (n : Int) < 0 := by omega
  simp only [Template.Argument.render]
  rw [if_neg hdecimal, if_pos hhex]
  simp [Template.showNumber, placeholder, hsign, Text.hexUpper, Text.padZero]

theorem fill_literals (bs : Text) (used : Bool) (rest : List Template.Piece)
    (args : List Template.Argument) :
    Template.fill [] used (bs.map .literal ++ rest) args = bs ++ Template.fill [] used rest args := by
  induction bs with
  | nil => rfl
  | cons b bs ih => rw [List.map_cons, List.cons_append, Template.fill, ih, List.cons_append]

/-- A format is what stands around its placeholder. -/
theorem parse_format {a : Addressing} (h : a.operand.isSome) :
    Template.parse a.format = (a.opening.flatMap Lexeme.text ++ [0x24]).map .literal ++
      .placeholder (placeholder (2 * a.shownSize)) :: (a.closing.flatMap Lexeme.text).map .literal := by
  cases a <;> simp only [operand, Option.isSome_none, Bool.false_eq_true] at h <;> decide

/-- An operand is shown by its lexemes. -/
theorem render_mode (a : Addressing) (value next mask : UInt64) :
    a.mode.render value next mask =
      (a.lexemes (a.shown value next mask).toNat).flatMap Lexeme.text := by
  cases hop : a.operand with
  | none =>
    have hformat : a.format = (a.opening ++ a.closing).flatMap Lexeme.text := by
      cases a <;> simp only [operand, reduceCtorEq] at hop <;> decide
    rw [Mode.render, if_pos (by simp [mode, hop])]
    simp [mode, lexemes, shownNumeral?, hop, hformat]
  | some k =>
    -- The format is filled in: what stands before the numeral, the numeral, what stands after it.
    have hformat : 0x25 ∈ a.format := by
      cases a <;> simp only [operand, reduceCtorEq] at hop <;> decide
    have hshown : (if a.mode.relative then
        (next + UInt64.ofInt (Word.signExtend value a.mode.operandSize)) &&& mask else value) =
          a.shown value next mask := by
      cases a <;> simp [mode, shown, Mode.operandSize, length]
    have hrest := fill_literals (a.closing.flatMap Lexeme.text) true [] []
    rw [List.append_nil] at hrest
    rw [Mode.render, hshown, if_neg (by simp [mode, hop, hformat]), Template.render]
    rw [show a.mode.format = a.format from rfl, parse_format (by simp [hop]), fill_literals,
      Template.fill, render_placeholder, hrest]
    simp [lexemes, shownNumeral?, hop, numeral, Template.fill]

/-! ## Which modes a shown operand is written in -/

/-- The components that modes are written with. -/
def components : List Component := all.flatMap fun a => a.written.flatten

theorem components_subset (a : Addressing) : ∀ p ∈ a.mode.patterns, p.components ⊆ components := by
  intro p hp c hc
  obtain ⟨cs, hcs, rfl⟩ := List.mem_map.1 hp
  have hall : a ∈ all := by cases a <;> decide
  exact List.mem_flatMap.2 ⟨a, hall, List.mem_flatten.2 ⟨cs, hcs, hc⟩⟩

theorem skipSpace_of_mem_patterns (a : Addressing) : ∀ p ∈ a.mode.patterns, p.skipSpace := by
  intro p hp
  obtain ⟨cs, -, rfl⟩ := List.mem_map.1 hp
  rfl

/-- Whether a component looks at no more of a numeral than its size. -/
def isCoarse : Component → Bool
  | .literal text fold => !fold && text.head? != some 0x24
  | .fitting d _ _ => d == dialect
  | .either first second => isCoarse first && isCoarse second
  | _ => true

theorem accepts_numeral {size n : Nat} (hsize : size = 1 ∨ size = 2) (hn : n < 2 ^ (8 * size))
    {c : Component} (hc : isCoarse c) :
    c.accepts (numeral (2 * size) n).token = c.accepts (numeral (2 * size) 0).token := by
  -- Only literals and sizes look into a numeral: no literal starts with its mark, and the size is fixed.
  induction c with
  | literal text fold =>
    have hother : ∀ k, (numeral (2 * size) k).text ≠ text := by
      rintro k rfl
      simp [isCoarse, numeral] at hc
    have hexact : fold = false := by
      simp only [isCoarse, Bool.and_eq_true, Bool.not_eq_true'] at hc
      exact hc.1
    simp [Component.accepts, Lexeme.token, hexact, hother]
  | kinds ks => rfl
  | constant => rfl
  | fitting d limit unsigned =>
    obtain rfl : d = dialect := by simpa [isCoarse] using hc
    have hsmall : n < 2 ^ 63 := lt_of_lt_of_le hn (Nat.pow_le_pow_right (by decide) (by omega))
    simp only [Component.accepts, sizeIn_numeral hsize hn, sizeIn_numeral hsize (Nat.two_pow_pos _),
      valueIn_numeral _ hsmall, valueIn_numeral _ (Nat.two_pow_pos 63)]
    simp [numeral, Lexeme.token]
  | register d names => rfl
  | either first second hfirst hsecond =>
    simp only [isCoarse, Bool.and_eq_true] at hc
    simp [Component.accepts, hfirst hc.1, hsecond hc.2]
  | synthetic => rfl

/-- Modes do not tell numerals of one size apart. -/
theorem alike_numeral {size n : Nat} (hsize : size = 1 ∨ size = 2) (hn : n < 2 ^ (8 * size)) :
    Component.Alike components (numeral (2 * size) n).token (numeral (2 * size) 0).token := by
  have hcoarse : ∀ c ∈ components, isCoarse c := by decide
  exact ⟨rfl, fun c hc => accepts_numeral hsize hn (hcoarse c hc)⟩

/-- What follows a mnemonic: a blank and the operand, if there is one. -/
def arguments (a : Addressing) (n : Nat) : List Lexeme :=
  if a = imp then [] else ⟨.whitespace, [0x20]⟩ :: a.lexemes n

/-- Modes do not tell apart what is shown for two numbers. -/
theorem alike_arguments (a : Addressing) {n : Nat} (hn : n < 2 ^ (8 * a.shownSize)) :
    List.Forall₂ (fun l k : Lexeme => l.kind ≠ .expression ∧ Component.Alike components l.token k.token)
      (a.arguments n) (a.arguments 0) := by
  have hsame : ∀ {ls : List Lexeme}, (∀ l ∈ ls, l.kind ≠ .expression) →
      List.Forall₂ (fun l k : Lexeme => l.kind ≠ .expression ∧ Component.Alike components l.token k.token)
        ls ls := fun h => List.forall₂_same.2 fun l hl => ⟨h l hl, rfl, fun _ _ => rfl⟩
  have hopening : ∀ l ∈ a.opening, l.kind ≠ .expression := by cases a <;> decide
  have hclosing : ∀ l ∈ a.closing, l.kind ≠ .expression := by cases a <;> decide
  have hlexemes : List.Forall₂
      (fun l k : Lexeme => l.kind ≠ .expression ∧ Component.Alike components l.token k.token)
      (a.lexemes n) (a.lexemes 0) := by
    refine List.rel_append (List.rel_append (hsame hopening) ?_) (hsame hclosing)
    rw [shownNumeral?, shownNumeral?]
    cases a.operand with
    | none => exact .nil
    | some _ => exact .cons ⟨by simp [numeral], alike_numeral a.shownSize_cases hn⟩ .nil
  unfold arguments
  split_ifs
  · exact .nil
  · exact .cons ⟨by simp, rfl, fun _ _ => rfl⟩ hlexemes

/-- Tokens of a shown operand are written in the modes in which it is written for zero. -/
theorem match?_shown (a mode' : Addressing) {n : Nat} (hn : n < 2 ^ (8 * a.shownSize)) {ts : List Token}
    (hts : ts.map Token.lexeme = a.arguments n) :
    mode'.mode.match? ts = if (mode'.mode.match? ((a.arguments 0).map Lexeme.token)).isSome then
      some (mode'.operand.bind ((ts.filter fun t => !t.isSpace)[·]?)) else none := by
  have hlexical : ∀ c ∈ components, c.isLexical := by decide
  have halike := a.alike_arguments hn
  rw [← hts, List.forall₂_map_left_iff] at halike
  -- From the tokens to their lexemes, and from these to the lexemes of zero.
  refine Mode.match?_eq mode'.skipSpace_of_mem_patterns mode'.components_subset
    (List.forall₂_map_right_iff.2 (halike.imp fun t l h => ?_))
  exact Component.Alike.trans (u := t.lexeme.token) (Component.alike_of_lexeme hlexical rfl h.1) h.2

/-- A shown operand is written in its own mode. -/
theorem isSome_match?_self (a : Addressing) :
    (a.mode.match? ((a.arguments 0).map Lexeme.token)).isSome := by
  cases a <;> decide

/-- Of the modes with a higher priority a shown operand is written in none, but that a relative operand is
written like an absolute one. -/
theorem isSome_match?_earlier (a : Addressing) :
    ∀ a' ∈ all.takeWhile (· ≠ a), (a'.mode.match? ((a.arguments 0).map Lexeme.token)).isSome →
      a' = abs ∧ a = rel := by
  cases a <;> decide

theorem operand_lexemes (a : Addressing) (n : Nat) :
    (a.operand.bind ((a.lexemes n)[·]?)) = a.shownNumeral? n := by
  cases a <;> rfl

theorem lexemes_filter {a : Addressing} {n : Nat} {ts : List Token}
    (hts : ts.map Token.lexeme = a.arguments n) :
    (ts.filter fun t => !t.isSpace).map Token.lexeme = a.lexemes n := by
  have hfilter : (ts.filter fun t => !t.isSpace).map Token.lexeme =
      (a.arguments n).filter fun l => !l.kind.isSpace := by
    rw [← hts, List.filter_map]
    rfl
  rw [hfilter]
  cases a <;> rfl

end Addressing

/-- Relative and absolute modes belong to different instructions. -/
theorem Operation.not_mem_opcodes_abs (op : Operation) {b : UInt8} (h : (.rel, b) ∈ op.opcodes)
    (b' : UInt8) : (.abs, b') ∉ op.opcodes := by
  have hall : (.rel ∈ op.opcodes.map Prod.fst) → .abs ∉ op.opcodes.map Prod.fst := by
    cases op <;> decide
  exact fun h' => hall (List.mem_map_of_mem h) (List.mem_map_of_mem h')

/-- A branch has no absolute mode in the table. -/
theorem lookup?_abs_eq_none {op : Operation} {b : UInt8}
    (hentry : ⟨op.name, Addressing.rel.mode, b⟩ ∈ table.entries) :
    table.lookup? op.name Addressing.abs.mode = none := by
  rw [Option.eq_none_iff_forall_ne_some]
  intro e he
  obtain ⟨b', hopcode, -⟩ := exists_of_lookup? he
  exact op.not_mem_opcodes_abs (mem_opcodes_of_mem_table hentry) b' hopcode

/-- An instruction is recognised from its mnemonic and its shown operand. -/
theorem recognize_shown {op : Operation} {a : Addressing} {b : UInt8}
    (hentry : ⟨op.name, a.mode, b⟩ ∈ table.entries) {n : Nat} (hn : n < 2 ^ (8 * a.shownSize))
    {ts : List Token} (hts : ts.map Token.lexeme = a.arguments n) :
    ∃ tok : Option Token, architecture.recognize op.name ts = .ok (⟨op.name, a.mode, b⟩, tok) ∧
      tok.map Token.lexeme = a.shownNumeral? n := by
  refine ⟨a.operand.bind ((ts.filter fun t => !t.isSpace)[·]?), ?_, ?_⟩
  · -- Modes are tried by priority, so that the list is cut at the mode of the instruction.
    obtain ⟨after, hall⟩ : ∃ after, Addressing.all = Addressing.all.takeWhile (· ≠ a) ++ a :: after := by
      cases a <;> exact ⟨_, rfl⟩
    -- A mode of higher priority either does not match or, for a branch, is not in the table.
    have hearlier : ∀ a' ∈ Addressing.all.takeWhile (· ≠ a), ((a'.mode.match? ts).bind fun tok =>
        (table.lookup? op.name a'.mode).map fun e => (e, tok)) = none := by
      intro a' ha'
      rw [a.match?_shown a' hn hts]
      split_ifs with hmatch
      · obtain ⟨rfl, rfl⟩ := a.isSome_match?_earlier a' ha' hmatch
        rw [lookup?_abs_eq_none hentry]
        rfl
      · rfl
    have hown : (a.mode.match? ts) = some (a.operand.bind ((ts.filter fun t => !t.isSpace)[·]?)) := by
      rw [a.match?_shown a hn hts, if_pos a.isSome_match?_self]
    have hmodes : architecture.modes = Addressing.all.map Addressing.mode := by
      simp only [architecture, Addressing.modes]
    simp only [Architecture.recognize, table_architecture, op.toUpper_name, isKnown_of_mem_table hentry,
      hmodes, List.findSome?_map, Function.comp_def]
    rw [hall, List.findSome?_append, List.findSome?_eq_none_iff.2 hearlier]
    simp [hown, lookup?_of_mem_table hentry]
  · rw [← a.operand_lexemes n, ← Addressing.lexemes_filter hts]
    cases a.operand with
    | none => rfl
    | some k => simp

end EightBit.Mos6502
