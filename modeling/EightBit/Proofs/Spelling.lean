import Mathlib
import EightBit.Proofs.Numeral
import EightBit.Proofs.Rescanning

/-!
# Spelled numbers

The scan finds what introduces a number by folding letter case, and its value is read after stripping an introduction
from the text again. Both find the same digits, so that every number among the tokens of a text stands for what its
digits spell: the value by position, with its sign and without underscores, whatever the letter case of the digits and
however many zeros lead them.

* `Numeral.digitOf`, `Mos6502.Digits.number`: the number that digits spell.
* `Mos6502.Constant.number?`, `Mos6502.Constant.span`: the number that a constant spells, and the bytes that its digits
  span.
* `Mos6502.Constant.valueIn_lexeme`: a written number has the value that it spells, if this is one of 64 bits.
* `Mos6502.tokenize_spelled`: so do the numbers among the tokens of a text.
-/

namespace EightBit

open Scan

/-! ## Digits -/

/-- The value of a digit. Letters count from ten on, in either case. -/
def Numeral.digitOf (b : UInt8) : Nat :=
  if b ≤ 0x39 then b.toNat - 0x30 else if b ≤ 0x46 then b.toNat - 0x41 + 10 else b.toNat - 0x61 + 10

namespace Mos6502

open Numeral

/-- The bytes of some class are digits of a base, with their values. -/
def AreDigits (isDigit : UInt8 → Bool) (base : Nat) : Prop := ∀ b, isDigit b → digitIn? base b = some (digitOf b)

theorem areDigits_of {isDigit : UInt8 → Bool} {base : Nat}
    (hall : ∀ n < 256, isDigit n.toUInt8 → digitIn? base n.toUInt8 = some (digitOf n.toUInt8)) :
    AreDigits isDigit base := by
  intro b
  simpa using hall b.toNat b.toNat_lt

theorem areDigits_hex : AreDigits isHexDigit 16 := areDigits_of (by decide +kernel)

theorem areDigits_bin : AreDigits isBinDigit 2 := areDigits_of (by decide +kernel)

theorem areDigits_dec : AreDigits isDigit 10 := areDigits_of (by decide +kernel)

theorem AreDigits.mapM {isDigit : UInt8 → Bool} {base : Nat} (hbase : AreDigits isDigit base) {t : Text}
    (ht : ∀ b ∈ t, isDigit b) : t.mapM (digitIn? base) = some (t.map digitOf) := by
  induction t with
  | nil => rfl
  | cons b t ih =>
    rw [List.mapM_cons, hbase b (ht b List.mem_cons_self), ih fun c hc => ht c (List.mem_cons_of_mem b hc)]
    rfl

namespace Digits

variable {isDigit : UInt8 → Bool} {base : Nat} (ds : Digits isDigit)

/-- The digits alone, without underscores. -/
def written : Text := ds.text.filter (· != 0x5F)

/-- The number that digits spell in a base, by their positions. -/
def number (base : Nat) : Nat := Nat.ofDigits base (ds.written.reverse.map digitOf)

theorem isDigit_of_mem_written {b : UInt8} (hb : b ∈ ds.written) : isDigit b := by
  obtain ⟨hmem, hne⟩ := List.mem_filter.1 hb
  rcases List.mem_cons.1 hmem with rfl | hmore
  · exact ds.isDigit_first
  · have hor := ds.isDigit_more b hmore
    simp only [Bool.or_eq_true, beq_iff_eq] at hor
    exact hor.resolve_right (bne_iff_ne.1 hne)

variable (hbase : AreDigits isDigit base)

include hbase

/-- A byte that is no digit of the base does not lead the digits. -/
theorem first_ne {b : UInt8} (hb : digitIn? base b = none) : ds.first ≠ b := by
  rintro rfl
  have hsome := hbase ds.first ds.isDigit_first
  rw [hb] at hsome
  cases hsome

theorem written_eq_cons : ds.written = ds.first :: ds.more.filter (· != 0x5F) := by
  have hunderscore : digitIn? base 0x5F = none := rfl
  exact List.filter_cons_of_pos (bne_iff_ne.2 (ds.first_ne hbase hunderscore))

/-- Digits are read as the number that they spell. -/
theorem read?_written : read? base ds.written = some (ds.number base) := by
  have hread := hbase.mapM fun b hb => ds.isDigit_of_mem_written hb
  have hcons := ds.written_eq_cons hbase
  rw [number, List.map_reverse, ← value_eq]
  rw [hcons] at hread ⊢
  rw [read?, hread]
  · rfl
  · exact List.cons_ne_nil _ _

/-- A numeral without a sign stands for the number that its digits spell. -/
theorem toInt?_written : ds.written.toInt? base = some (ds.number base : Int) := by
  have hminus : digitIn? base 0x2D = none := rfl
  have hplus : digitIn? base 0x2B = none := rfl
  have hread := ds.read?_written hbase
  have hcons := ds.written_eq_cons hbase
  rw [hcons] at hread ⊢
  -- The first two cases are signs, which are no digits.
  unfold Text.toInt?
  split
  next heq => exact absurd (List.cons.inj heq).1 (ds.first_ne hbase hminus)
  next heq => exact absurd (List.cons.inj heq).1 (ds.first_ne hbase hplus)
  next =>
    rw [hread]
    rfl

end Digits

/-! ## Constants -/

namespace Constant

/-- The number that the digits of a constant spell, with its sign; a character literal has no digits. -/
def number? : Constant → Option Int
  | hex _ _ ds => some (ds.number 16)
  | bin _ _ ds => some (ds.number 2)
  | dec sign _ ds => some (if sign = 0x2D then -(ds.number 10 : Int) else ds.number 10)
  | udec ds => some (ds.number 10)
  | char _ => none

/-- The bytes that the digits of a number span: a hexadecimal digit has four bits, and a binary one is one. -/
def span : Constant → Nat
  | hex _ _ ds => (4 * ds.written.length) ⌈/⌉ 8
  | bin _ _ ds => ds.written.length ⌈/⌉ 8
  | _ => 0

end Constant

/-! ## Values -/

section Strip

variable {isDigit : UInt8 → Bool} (ds : Digits isDigit) {p mark : Text} (ps : List Text)

/-- An introduction is stripped in any letter case. -/
theorem stripRadix_of_equalFold (hlength : mark.length = p.length) (hfold : mark.equalFold p) :
    Token.stripRadix (p :: ps) (mark ++ ds.text) = ds.text := by
  have hlt : p.length < (mark ++ ds.text).length := by simp [hlength, Digits.text]
  have htake : (mark ++ ds.text).take p.length = mark := by rw [← hlength, List.take_left]
  have hfound : (decide (p.length < (mark ++ ds.text).length) &&
      Text.equalFold ((mark ++ ds.text).take p.length) p) = true := by
    rw [htake, hfold, decide_eq_true hlt, Bool.and_true]
  rw [Token.stripRadix, List.find?_cons_of_pos]
  · change (mark ++ ds.text).drop p.length = ds.text
    rw [← hlength, List.drop_left]
  · exact hfound

/-- A symbol that the text does not start with is passed over. -/
theorem stripRadix_cons {symbol b : UInt8} (hfold : Text.equalFold [b] [symbol] = false) (t : Text) :
    Token.stripRadix ([symbol] :: ps) (b :: t) = Token.stripRadix ps (b :: t) := by
  rw [Token.stripRadix, List.find?_cons_of_neg]
  · rfl
  · simp [hfold]

/-- Each spelling of the mark of a base is stripped: its symbol, or a zero with its letter in either case. -/
theorem stripRadix_mark {symbol letter capital : UInt8} (hzero : Text.equalFold [0x30] [symbol] = false)
    (hcapital : Text.equalFold [0x30, capital] [0x30, letter])
    (hmark : mark = [symbol] ∨ mark = [0x30, letter] ∨ mark = [0x30, capital]) :
    Token.stripRadix [[symbol], [0x30, letter]] (mark ++ ds.text) = ds.text := by
  have hlength : ([0x30, capital] : Text).length = ([0x30, letter] : Text).length := rfl
  rcases hmark with rfl | rfl | rfl
  · exact stripRadix_of_equalFold ds _ rfl (Text.equalFold_refl _)
  · exact (stripRadix_cons _ hzero _).trans (stripRadix_of_equalFold ds [] rfl (Text.equalFold_refl _))
  · exact (stripRadix_cons _ hzero _).trans (stripRadix_of_equalFold ds [] hlength hcapital)

end Strip

namespace Constant

/-- What is left of a number to read: its digits, behind its sign if it has one. -/
def numeral : Constant → Text
  | hex _ _ ds => ds.written
  | bin _ _ ds => ds.written
  | dec sign _ ds => sign :: ds.written
  | udec ds => ds.written
  | char _ => []

variable {c : Constant} {n : Int} (hn : c.number? = some n)

include hn

/-- What is stripped of a number is what introduces it, in any of its spellings. -/
theorem digitsIn_lexeme : c.lexeme.token.digitsIn dialect = c.numeral := by
  have hhex : dialect.hexPrefixes = [[0x24], [0x30, 0x78]] := by decide
  have hbin : dialect.binPrefixes = [[0x25], [0x30, 0x62]] := by decide
  -- A mark of letters is met behind the symbol of its base, in the order in which marks are tried.
  cases c with
  | hex mark isMark ds =>
    have hstrip := stripRadix_mark ds (by decide) (by decide) (mem_hexMarks isMark)
    rw [← hhex] at hstrip
    exact congrArg (Text.without 0x5F) hstrip
  | bin mark isMark ds =>
    have hstrip := stripRadix_mark ds (by decide) (by decide) (mem_binMarks isMark)
    rw [← hbin] at hstrip
    exact congrArg (Text.without 0x5F) hstrip
  | dec sign isSign ds => rcases isSign with rfl | rfl <;> rfl
  | udec ds => rfl
  | char c => cases hn

/-- A number is read as what it spells. -/
theorem toInt?_digitsIn :
    (c.lexeme.token.digitsIn dialect).toInt? (c.lexeme.token.radix dialect).1 = some n := by
  rw [digitsIn_lexeme hn, ← hn]
  cases c with
  | hex mark isMark ds => exact ds.toInt?_written areDigits_hex
  | bin mark isMark ds => exact ds.toInt?_written areDigits_bin
  | dec sign isSign ds =>
    -- Only here does the reader meet a sign.
    have hread := ds.read?_written areDigits_dec
    rcases isSign with rfl | rfl
    · change Text.toInt? 10 (0x2D :: ds.written) = some (-(ds.number 10 : Int))
      rw [Text.toInt?, hread]
      rfl
    · change Text.toInt? 10 (0x2B :: ds.written) = some (ds.number 10 : Int)
      rw [Text.toInt?, hread]
      rfl
  | udec ds => exact ds.toInt?_written areDigits_dec
  | char c => cases hn

/-- A written number has the value that it spells, if this is one of signed 64 bits. -/
theorem valueIn_lexeme : c.lexeme.token.valueIn dialect =
    if -2 ^ 63 ≤ n ∧ n < 2 ^ 63 then .ok n else .error (.notConstant c.text) := by
  have hread := toInt?_digitsIn hn
  have hrange : isInt64 n ↔ -2 ^ 63 ≤ n ∧ n < 2 ^ 63 := by
    simp only [isInt64, Bool.and_eq_true, decide_eq_true_eq]
    norm_num
  have hvalue : c.lexeme.token.valueIn dialect =
      if isInt64 n then .ok n else .error (.notConstant c.text) := by
    unfold Token.valueIn
    rw [hread]
    cases c with
    | char c => cases hn
    | _ => rfl
  rw [hvalue]
  simp only [hrange]

/-- The written digits of a number span as many bytes as their bits take. -/
theorem writtenSize_lexeme : c.lexeme.token.writtenSize dialect = c.span := by
  unfold Token.writtenSize
  rw [digitsIn_lexeme hn]
  cases c with
  | hex mark isMark ds =>
    change (ds.written.length + 1) / 2 = (4 * ds.written.length) ⌈/⌉ 8
    rw [Nat.ceilDiv_eq_add_pred_div]
    omega
  | bin mark isMark ds =>
    change (ds.written.length + 7) / 8 = ds.written.length ⌈/⌉ 8
    rw [Nat.ceilDiv_eq_add_pred_div]
    rfl
  | dec sign isSign ds => rfl
  | udec ds => rfl
  | char c => rfl

theorem sizeIn_lexeme : c.lexeme.token.sizeIn dialect =
    if -2 ^ 63 ≤ n ∧ n < 2 ^ 63 then .ok (max (byteSize n) c.span) else .error (.notConstant c.text) := by
  rw [Token.sizeIn, valueIn_lexeme hn, writtenSize_lexeme hn]
  split_ifs <;> rfl

end Constant

/-- Every number among the tokens of a text is a written one, and stands for what it spells: its value is the one of its
digits by position, unless this is none of signed 64 bits, and its size is that of its value, or of its digits if
these span more bytes. -/
theorem tokenize_spelled (file text : Text) {t : Token} (ht : t ∈ (Token.tokenize dialect file text).tokens)
    (hkind : t.kind = .bin ∨ t.kind = .hex ∨ t.kind = .dec ∨ t.kind = .udec) :
    (∃ c : Constant, c.lexeme = t.lexeme) ∧ ∀ c : Constant, c.lexeme = t.lexeme → ∃ n : Int, c.number? = some n ∧
      t.valueIn dialect = (if -2 ^ 63 ≤ n ∧ n < 2 ^ 63 then .ok n else .error (.notConstant t.text)) ∧
      t.sizeIn dialect =
        if -2 ^ 63 ≤ n ∧ n < 2 ^ 63 then .ok (max (byteSize n) c.span) else .error (.notConstant t.text) := by
  have hconstant : t.kind.isConstant := by rcases hkind with h | h | h | h <;> rw [h] <;> rfl
  obtain ⟨s, -, hs⟩ := exists_spaced_of_mem_tokenize ht hconstant
  cases s with
  | operation gaps left op right =>
    -- Operations are constants too, but are no numbers.
    have hexpression : t.kind = .expression := congrArg Token.kind hs
    simp [hexpression] at hkind
  | constant c =>
    have hlexeme : c.lexeme = t.lexeme := (congrArg Token.lexeme hs).symm
    refine ⟨⟨c, hlexeme⟩, fun c' hc' => ?_⟩
    -- Whatever else is written like the token has its text and kind, which are all that its value depends on.
    have hbare : t.bare = c'.lexeme.token := by
      rw [hc', ← hlexeme]
      exact hs
    obtain ⟨n, hn⟩ : ∃ n, c'.number? = some n := by
      cases c' with
      | char c' =>
        have hchar : t.kind = .char := congrArg Token.kind hbare
        simp [hchar] at hkind
      | _ => exact ⟨_, rfl⟩
    have htext : t.text = c'.text := congrArg Token.text hbare
    refine ⟨n, hn, ?_, ?_⟩
    · rw [htext, ← Constant.valueIn_lexeme hn, ← hbare]
      rfl
    · rw [htext, ← Constant.sizeIn_lexeme hn, ← hbare]
      rfl

/-- A number with an underscore, leading zeros and digits in both cases, and one beyond signed 64 bits. -/
def spelledSource : Text := "$0_0fF 9223372036854775808"

/-- The first number of the text: its mark, and its digits. -/
def spelledHex : Constant := .hex "$" (by decide) ⟨0x30, "_0fF", by decide, by decide +kernel⟩

/-- The second number of the text, which has no mark. -/
def spelledUdec : Constant := .udec ⟨0x39, "223372036854775808", by decide, by decide +kernel⟩

theorem tokenize_spelled_source :
    (∃ t ∈ (Token.tokenize dialect "f" spelledSource).tokens,
        t.lexeme = spelledHex.lexeme ∧ t.valueIn dialect = .ok 255 ∧ t.sizeIn dialect = .ok 2) ∧
      ∃ t ∈ (Token.tokenize dialect "f" spelledSource).tokens,
        t.lexeme = spelledUdec.lexeme ∧ t.valueIn dialect = .error (.notConstant t.text) := by
  have htokens : (∃ t ∈ (Token.tokenize dialect "f" spelledSource).tokens, t.lexeme = spelledHex.lexeme) ∧
      ∃ t ∈ (Token.tokenize dialect "f" spelledSource).tokens, t.lexeme = spelledUdec.lexeme := by
    decide +kernel
  have hhex : spelledHex.number? = some 255 ∧ spelledHex.span = 2 := by decide +kernel
  have hudec : spelledUdec.number? = some (2 ^ 63) := by decide +kernel
  obtain ⟨⟨t, ht, hlexeme⟩, u, hu, hlexeme'⟩ := htokens
  refine ⟨⟨t, ht, hlexeme, ?_⟩, u, hu, hlexeme', ?_⟩
  · have hkind : t.kind = .hex := congrArg Lexeme.kind hlexeme
    obtain ⟨n, hn, hvalue, hsize⟩ :=
      (tokenize_spelled "f" spelledSource ht (.inr (.inl hkind))).2 spelledHex hlexeme.symm
    obtain rfl := Option.some.inj (hhex.1.symm.trans hn)
    rw [if_pos (by decide)] at hvalue hsize
    rw [hhex.2] at hsize
    exact ⟨hvalue, hsize⟩
  · have hkind : u.kind = .udec := congrArg Lexeme.kind hlexeme'
    obtain ⟨n, hn, hvalue, -⟩ :=
      (tokenize_spelled "f" spelledSource hu (.inr (.inr (.inr hkind)))).2 spelledUdec hlexeme'.symm
    obtain rfl := Option.some.inj (hudec.symm.trans hn)
    rwa [if_neg (by decide)] at hvalue

end Mos6502

end EightBit
