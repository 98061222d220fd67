import Mathlib
import EightBit.Mos6502.Addressing
import EightBit.Proofs.Scan

/-!
# Written constants

The constants of the 6502's sources as they are written: hexadecimal and binary numerals with their marks,
decimal numerals with or without a sign, and character literals. A constant is read back as one lexeme of its
kind where a sign belongs to a number and nothing follows that an identifier may go on with.

* `Mos6502.Digits`, `Mos6502.LiteralChar`, `Mos6502.Constant`: the ways to write a constant.
* `Mos6502.Constant.readsIn`: a constant is read back.
* `Mos6502.Constant.value`: the number that it stands for, or why it has none.
-/

namespace EightBit

namespace Text

/-! ## Characters of several bytes -/

/-- What cannot continue a character does not change the one before it. -/
theorem firstRune_append (b : UInt8) (more : Text) {rest : Text}
    (hrest : rest.head?.all fun c => !isContinuation c) :
    firstRune b (more ++ rest) = firstRune b more := by
  cases rest with
  | nil => rw [List.append_nil]
  | cons c rest =>
    have hc : isContinuation c = false := by simpa using hrest
    unfold firstRune
    -- A character has at most three bytes behind its first, and any of them may be the one that is missing.
    rcases more with _ | ⟨x, _ | ⟨y, _ | ⟨z, more⟩⟩⟩ <;> rcases rest with _ | ⟨x', _ | ⟨y', rest⟩⟩ <;>
      simp [hc]

theorem width_firstRune_bounds (b : UInt8) (more : Text) :
    1 ≤ (firstRune b more).width ∧ (firstRune b more).width ≤ more.length + 1 := by
  unfold firstRune
  rcases more with _ | ⟨x, _ | ⟨y, _ | ⟨z, more⟩⟩⟩ <;> simp only [Rune.invalid] <;> split_ifs <;> simp

theorem length_le_of_runesFrom {skip : Nat} {t : Text} (h : runesFrom skip t = []) : t.length ≤ skip := by
  induction t generalizing skip with
  | nil => exact Nat.zero_le _
  | cons b t ih =>
    cases skip with
    | zero => simp [runesFrom] at h
    | succ skip => exact Nat.succ_le_succ (ih (by simpa [runesFrom] using h))

/-- A text of one character is that character. -/
theorem width_firstRune_of_runes {b : UInt8} {more : Text} (h : (runes (b :: more)).length = 1) :
    (firstRune b more).width = (b :: more).length := by
  obtain ⟨hpos, hle⟩ := width_firstRune_bounds b more
  have hrest : runesFrom ((firstRune b more).width - 1) more = [] := by
    simpa [runes, runesFrom] using h
  have hlength := length_le_of_runesFrom hrest
  rw [List.length_cons]
  omega

end Text

namespace Mos6502

open Scan

/-! ## The ways to write a constant -/

/-- The digits of a numeral: a digit, and then digits and underscores. -/
structure Digits (isDigit : UInt8 → Bool) where
  /-- The first digit. -/
  first : UInt8
  /-- What follows it. -/
  more : Text
  isDigit_first : isDigit first
  isDigit_more : ∀ b ∈ more, isDigit b || b == 0x5F

/-- The digits as they are written. -/
def Digits.text {isDigit : UInt8 → Bool} (ds : Digits isDigit) : Text := ds.first :: ds.more

/-- What stands between the quotes of a character literal: one character, perhaps behind a backslash. A newline
is never allowed, and a quote or a backslash only behind a backslash. -/
structure LiteralChar where
  /-- Whether a backslash stands before the character. -/
  escaped : Bool
  /-- The bytes of the character. -/
  bytes : Text
  isOne : bytes.runes.length = 1
  isAllowed : ∀ b ∈ bytes.head?, b ≠ 0x0A ∧ (escaped = false → b ≠ 0x27 ∧ b ≠ 0x5C)

/-- The bytes between the quotes. -/
def LiteralChar.text (c : LiteralChar) : Text := (if c.escaped then [0x5C] else []) ++ c.bytes

/-- What may stand before hexadecimal digits. -/
def hexMarks : List Text := ["$", "0x", "0X"]

/-- What may stand before binary digits. -/
def binMarks : List Text := ["%", "0b", "0B"]

/-- A constant as it is written. -/
inductive Constant
  | hex (mark : Text) (isMark : mark ∈ hexMarks) (digits : Digits isHexDigit)
  | bin (mark : Text) (isMark : mark ∈ binMarks) (digits : Digits isBinDigit)
  | dec (sign : UInt8) (isSign : sign = 0x2D ∨ sign = 0x2B) (digits : Digits isDigit)
  | udec (digits : Digits isDigit)
  | char (c : LiteralChar)

namespace Constant

/-- The source text. -/
def text : Constant → Text
  | hex mark _ digits => mark ++ digits.text
  | bin mark _ digits => mark ++ digits.text
  | dec sign _ digits => sign :: digits.text
  | udec digits => digits.text
  | char c => 0x27 :: (c.text ++ [0x27])

/-- The lexical class. -/
def kind : Constant → TokenKind
  | hex .. => .hex
  | bin .. => .bin
  | dec .. => .dec
  | udec _ => .udec
  | char _ => .char

/-- The lexeme that a constant is. -/
def lexeme (c : Constant) : Lexeme := ⟨c.kind, c.text⟩

/-- The number that a constant stands for, or why it has none. -/
def value (c : Constant) : Except ValueError Int := ({ kind := c.kind, text := c.text } : Token).valueIn dialect

end Constant

/-! ## Numerals -/

/-- What may stand right behind a constant: nothing that an identifier may go on with, and no character of
several bytes. -/
def endsConstant (b : UInt8) : Bool := b < 0x80 && !isIdentifier b

theorem not_isIdentifier_of_ends {rest : Text} (h : rest.head?.all endsConstant) :
    rest.head?.all fun c => !isIdentifier c := by
  cases rest with
  | nil => rfl
  | cons c rest =>
    simp only [List.head?_cons, Option.all_some, endsConstant, Bool.and_eq_true] at h
    exact h.2

/-- Digits reach to their end if nothing follows that is one of them. -/
theorem Digits.digits?_append {isDigit : UInt8 → Bool} (ds : Digits isDigit)
    (hidentifier : ∀ b, isDigit b → isIdentifier b) {rest : Text} (hrest : rest.head?.all fun c => !isIdentifier c) :
    digits? isDigit (ds.text ++ rest) = some ds.text.length := by
  have hend : rest.head?.all fun c => !(isDigit c || c == 0x5F) := by
    cases rest with
    | nil => rfl
    | cons c rest =>
      simp only [List.head?_cons, Option.all_some, Bool.not_eq_true', Bool.or_eq_false_iff] at hrest ⊢
      refine ⟨?_, ?_⟩
      · cases hc : isDigit c with
        | true => simp [hidentifier c hc] at hrest
        | false => rfl
      · simp only [isIdentifier, Bool.or_eq_false_iff] at hrest
        exact hrest.2
  rw [Digits.text, List.cons_append, digits?, run?, if_pos ds.isDigit_first,
    length_takeWhile_append ds.isDigit_more hend, List.length_cons, Nat.add_comm]

theorem isIdentifier_of_isDigit {b : UInt8} (h : isDigit b) : isIdentifier b := by
  simp [isIdentifier, h]

theorem isDigit_of_isBinDigit {b : UInt8} (h : isBinDigit b) : isDigit b := by
  have hb : b = 0x30 ∨ b = 0x31 := by simpa [isBinDigit] using h
  rcases hb with rfl | rfl <;> rfl

/-- A mark is read byte by byte. -/
theorem spelled?_cons {b : UInt8} (hb : b < 0x80) (c : Nat) (cs : List Nat) (rest : Text) :
    spelled? (c :: cs) (b :: rest) =
      if CodePoint.fold b.toNat = CodePoint.fold c then (spelled? cs rest).map (1 + ·) else none := by
  simp [spelled?, Text.firstRune, hb]

/-- A numeral in another base is tried with each mark in turn. -/
theorem radix?_eq (introductions : List Text) (isDigit : UInt8 → Bool) (t : Text) :
    radix? introductions isDigit t = (introductions.map Text.codePoints).findSome? fun codes =>
      (spelled? codes t).bind fun n => (digits? isDigit (t.drop n)).map (n + ·) := by
  rw [radix?, List.findSome?_map]
  rfl

theorem codePoints_binPrefixes : dialect.binPrefixes.map Text.codePoints = [[0x25], [0x30, 0x62]] := by decide

theorem codePoints_hexPrefixes : dialect.hexPrefixes.map Text.codePoints = [[0x24], [0x30, 0x78]] := by decide

theorem mem_hexMarks {mark : Text} (h : mark ∈ hexMarks) :
    mark = [0x24] ∨ mark = [0x30, 0x78] ∨ mark = [0x30, 0x58] := by
  revert mark
  decide

theorem mem_binMarks {mark : Text} (h : mark ∈ binMarks) :
    mark = [0x25] ∨ mark = [0x30, 0x62] ∨ mark = [0x30, 0x42] := by
  revert mark
  decide

theorem spelled?_nil (t : Text) : spelled? [] t = some 0 := by
  cases t <;> rfl

/-- Behind the mark of a base its digits decide. -/
theorem radix?_hexMark {mark : Text} (h : mark ∈ hexMarks) (u : Text) :
    radix? dialect.binPrefixes isBinDigit (mark ++ u) = none ∧
      radix? dialect.hexPrefixes isHexDigit (mark ++ u) = (digits? isHexDigit u).map (mark.length + ·) := by
  rw [radix?_eq, radix?_eq, codePoints_binPrefixes, codePoints_hexPrefixes]
  rcases mem_hexMarks h with rfl | rfl | rfl
  · simp +decide [List.findSome?_cons, spelled?_cons, spelled?_nil]
    cases digits? isHexDigit u <;> rfl
  · simp +decide [List.findSome?_cons, spelled?_cons, spelled?_nil]
    cases digits? isHexDigit u <;> rfl
  · simp +decide [List.findSome?_cons, spelled?_cons, spelled?_nil]
    cases digits? isHexDigit u <;> rfl

theorem radix?_binMark {mark : Text} (h : mark ∈ binMarks) (u : Text) :
    radix? dialect.binPrefixes isBinDigit (mark ++ u) = (digits? isBinDigit u).map (mark.length + ·) := by
  rw [radix?_eq, codePoints_binPrefixes]
  rcases mem_binMarks h with rfl | rfl | rfl
  · simp +decide [List.findSome?_cons, spelled?_cons, spelled?_nil]
    cases digits? isBinDigit u <;> rfl
  · simp +decide [List.findSome?_cons, spelled?_cons, spelled?_nil]
    cases digits? isBinDigit u <;> rfl
  · simp +decide [List.findSome?_cons, spelled?_cons, spelled?_nil]
    cases digits? isBinDigit u <;> rfl

/-- A digit without a letter behind it belongs to no mark. -/
theorem radix?_digit {b : UInt8} (hb : isDigit b) {u : Text} (hu : u.head?.all fun c => c < 0x80 && !isLetter c) :
    radix? dialect.binPrefixes isBinDigit (b :: u) = none ∧
      radix? dialect.hexPrefixes isHexDigit (b :: u) = none := by
  have hrange := toNat_of_isDigit hb
  have hascii : b < 0x80 := by
    rw [UInt8.lt_iff_toNat_lt]
    exact lt_of_le_of_lt hrange.2 (by decide)
  have hfold : CodePoint.fold b.toNat = b.toNat := CodePoint.fold_of_lt _ (by omega)
  -- The letter of a mark is no other letter, in either case.
  have hletters : ∀ c < 0x80, isLetter c.toUInt8 = false →
      CodePoint.fold c ≠ CodePoint.fold 0x62 ∧ CodePoint.fold c ≠ CodePoint.fold 0x78 := by decide
  have hletter : spelled? [0x62] u = none ∧ spelled? [0x78] u = none := by
    cases u with
    | nil => exact ⟨rfl, rfl⟩
    | cons c u =>
      simp only [List.head?_cons, Option.all_some, Bool.and_eq_true, decide_eq_true_eq, Bool.not_eq_true'] at hu
      have hc : c.toNat < 0x80 := by simpa [UInt8.lt_iff_toNat_lt] using hu.1
      obtain ⟨hbin, hhex⟩ := hletters c.toNat hc (by simpa using hu.2)
      rw [spelled?_cons hu.1, spelled?_cons hu.1, if_neg hbin, if_neg hhex]
      exact ⟨rfl, rfl⟩
  have hmarks : CodePoint.fold b.toNat ≠ CodePoint.fold 0x25 ∧ CodePoint.fold b.toNat ≠ CodePoint.fold 0x24 := by
    rw [hfold, CodePoint.fold_of_lt 0x25 (by decide), CodePoint.fold_of_lt 0x24 (by decide)]
    omega
  rw [radix?_eq, radix?_eq, codePoints_binPrefixes, codePoints_hexPrefixes]
  simp [spelled?_cons hascii, hmarks, hletter]

theorem isPlain_of_isDigit {b : UInt8} (h : isDigit b) : b < 0x80 ∧ (!isLetter b) = true := by
  have hrange := toNat_of_isDigit h
  simp only [isLetter, Bool.not_eq_true', Bool.or_eq_false_iff, Bool.and_eq_false_iff, decide_eq_false_iff_not,
    UInt8.lt_iff_toNat_lt, UInt8.le_iff_toNat_le, UInt8.reduceToNat]
  omega

/-- A binary numeral is accepted if it does not run into a word. -/
theorem rule?_bin {st : State} {mark : Text} (isMark : mark ∈ binMarks) (ds : Digits isBinDigit) {rest : Text}
    (hrest : rest.head?.all fun c => !isIdentifier c) :
    rule? dialect st (mark ++ ds.text ++ rest) = some (.bin, (mark ++ ds.text).length) := by
  have hdigits := ds.digits?_append (fun _ h => isIdentifier_of_isDigit (isDigit_of_isBinDigit h)) hrest
  have hbin := radix?_binMark isMark (ds.text ++ rest)
  rw [← List.append_assoc] at hbin
  rw [hdigits, Option.map_some, ← List.length_append] at hbin
  have hapart := apart_append (mark ++ ds.text) hrest
  have hstart : run? isBlank isBlank (mark ++ ds.text ++ rest) = none ∧
      newline? (mark ++ ds.text ++ rest) = none := by
    rcases mem_binMarks isMark with rfl | rfl | rfl <;> exact ⟨rfl, rfl⟩
  rw [rule?, hstart.1, hstart.2, hbin, hapart]
  rfl

/-! ## Reading back -/

/-- A rule that accepts a text as a constant reads it back. -/
theorem next?_of_rule? {st : State} {l : Lexeme} {rest : Text} (hkind : l.kind ≠ .word)
    (h : rule? dialect st (l.text ++ rest) = some (l.kind, l.text.length)) :
    next? dialect st (l.text ++ rest) = some l := by
  rw [next?, h]
  simp [hkind]

namespace Constant

variable {st : State} {rest : Text} (hrest : rest.head?.all endsConstant)

include hrest

theorem rule?_hex {mark : Text} (isMark : mark ∈ hexMarks) (ds : Digits isHexDigit) :
    rule? dialect st (mark ++ ds.text ++ rest) = some (.hex, (mark ++ ds.text).length) := by
  have hdigits := ds.digits?_append (fun _ => isIdentifier_of_isHexDigit) (not_isIdentifier_of_ends hrest)
  obtain ⟨hbin, hhex⟩ := radix?_hexMark isMark (ds.text ++ rest)
  rw [← List.append_assoc] at hbin hhex
  rw [hdigits, Option.map_some, ← List.length_append] at hhex
  have hapart := apart_append (mark ++ ds.text) (not_isIdentifier_of_ends hrest)
  have hstart : run? isBlank isBlank (mark ++ ds.text ++ rest) = none ∧
      newline? (mark ++ ds.text ++ rest) = none := by
    rcases mem_hexMarks isMark with rfl | rfl | rfl <;> exact ⟨rfl, rfl⟩
  rw [rule?, hstart.1, hstart.2, hbin, hhex, hapart]
  rfl

theorem rule?_dec (hsigned : st.signed = true) {sign : UInt8} (isSign : sign = 0x2D ∨ sign = 0x2B)
    (ds : Digits isDigit) :
    rule? dialect st (sign :: ds.text ++ rest) = some (.dec, (sign :: ds.text).length) := by
  have hdigits := ds.digits?_append (fun _ => isIdentifier_of_isDigit) (not_isIdentifier_of_ends hrest)
  have hlength : signedDigits? (sign :: ds.text ++ rest) = some (sign :: ds.text).length := by
    rw [List.cons_append, signedDigits?, if_pos isSign, hdigits, Option.map_some, List.length_cons, Nat.add_comm]
  have hapart := apart_append (sign :: ds.text) (not_isIdentifier_of_ends hrest)
  have hstart : run? isBlank isBlank (sign :: ds.text ++ rest) = none ∧
      newline? (sign :: ds.text ++ rest) = none ∧
      radix? dialect.binPrefixes isBinDigit (sign :: ds.text ++ rest) = none ∧
      radix? dialect.hexPrefixes isHexDigit (sign :: ds.text ++ rest) = none := by
    rcases isSign with rfl | rfl <;>
      exact ⟨rfl, rfl, radix?_eq_none (by decide) (by decide) _ _, radix?_eq_none (by decide) (by decide) _ _⟩
  obtain ⟨hblank, hnewline, hbin, hhex⟩ := hstart
  rw [rule?, hblank, hnewline, hbin, hhex, hlength, hapart, if_pos hsigned]
  rfl

theorem rule?_udec (ds : Digits isDigit) :
    rule? dialect st (ds.text ++ rest) = some (.udec, ds.text.length) := by
  have hdigits := ds.digits?_append (fun _ => isIdentifier_of_isDigit) (not_isIdentifier_of_ends hrest)
  have hapart := apart_append ds.text (not_isIdentifier_of_ends hrest)
  -- Behind the first digit stands a digit, an underscore or what ends the constant.
  have hnext : (ds.more ++ rest).head?.all fun c => c < 0x80 && !isLetter c := by
    cases hmore : ds.more with
    | nil =>
      cases rest with
      | nil => rfl
      | cons c rest =>
        simp only [List.head?_cons, Option.all_some, endsConstant, isIdentifier, Bool.and_eq_true,
          Bool.not_eq_true', Bool.or_eq_false_iff] at hrest
        simp [hrest.1, hrest.2.1.1]
    | cons c more =>
      have hc := ds.isDigit_more c (by simp [hmore])
      simp only [Bool.or_eq_true, beq_iff_eq] at hc
      simp only [List.cons_append, List.head?_cons, Option.all_some, Bool.and_eq_true, decide_eq_true_eq]
      rcases hc with hc | rfl
      · exact isPlain_of_isDigit hc
      · decide
  obtain ⟨hbin, hhex⟩ := radix?_digit ds.isDigit_first hnext
  have hother : isBlank ds.first = false ∧ ds.first ≠ 0x0A ∧ ds.first ≠ 0x2D ∧ ds.first ≠ 0x2B := by
    have hrange := toNat_of_isDigit ds.isDigit_first
    simp only [isBlank, Bool.or_eq_false_iff, beq_eq_false_iff_ne, ne_eq, ← UInt8.toNat_inj,
      UInt8.reduceToNat]
    omega
  obtain ⟨hblank, hnewline, hminus, hplus⟩ := hother
  have hsign : (if st.signed = true then apart (ds.text ++ rest) (signedDigits? (ds.text ++ rest)) else none) = none := by
    simp [Digits.text, signedDigits?, hminus, hplus, apart]
  have hstart : run? isBlank isBlank (ds.text ++ rest) = none ∧ newline? (ds.text ++ rest) = none := by
    simp [Digits.text, run?, newline?, hblank, hnewline]
  rw [Digits.text, List.cons_append] at hstart hsign hdigits hapart ⊢
  rw [rule?, hstart.1, hstart.2, hbin, hhex, hsign, hdigits, hapart]
  rfl

/-- A decimal numeral without a sign is read back whatever stands before it. -/
theorem reads_udec (ds : Digits isDigit) : Reads dialect ⟨.udec, ds.text⟩ rest :=
  ⟨by simp [Digits.text], fun _ => next?_of_rule? (by simp) (rule?_udec hrest ds)⟩

omit hrest in
/-- The character of a literal ends at its closing quote. -/
theorem literalChar?_text (c : LiteralChar) (rest : Text) :
    literalChar? 0x27 (c.text ++ 0x27 :: rest) = some c.text.length := by
  obtain ⟨escaped, bytes, isOne, isAllowed⟩ := c
  cases bytes with
  | nil => simp [Text.runes, Text.runesFrom] at isOne
  | cons b more =>
    have hwidth : (Text.firstRune b (more ++ 0x27 :: rest)).width = (b :: more).length := by
      rw [Text.firstRune_append b more (by rfl), Text.width_firstRune_of_runes isOne]
    obtain ⟨hnewline, hquote⟩ := isAllowed b (by simp)
    cases escaped with
    | true => simp [LiteralChar.text, literalChar?, hnewline, hwidth, Nat.add_comm]
    | false => simp [LiteralChar.text, literalChar?, hnewline, hquote rfl, hwidth]

omit hrest in
theorem rule?_char (c : LiteralChar) :
    rule? dialect st (0x27 :: (c.text ++ [0x27]) ++ rest) =
      some (.char, (0x27 :: (c.text ++ [0x27]) : Text).length) := by
  have htext : (0x27 :: (c.text ++ [0x27]) ++ rest : Text) = 0x27 :: (c.text ++ 0x27 :: rest) := by simp
  have hliteral : charLiteral? (0x27 :: (c.text ++ 0x27 :: rest)) = some (c.text.length + 2) := by
    simp [charLiteral?, literalChar?_text]
  have hbin : radix? dialect.binPrefixes isBinDigit (0x27 :: (c.text ++ 0x27 :: rest)) = none :=
    radix?_eq_none (by decide) (by decide) _ _
  have hhex : radix? dialect.hexPrefixes isHexDigit (0x27 :: (c.text ++ 0x27 :: rest)) = none :=
    radix?_eq_none (by decide) (by decide) _ _
  rw [htext, rule?, hbin, hhex, hliteral]
  simp +decide [run?, newline?, digits?, signedDigits?, apart]

/-- A constant is read back where a sign belongs to a number. -/
theorem readsIn (c : Constant) (hsigned : st.signed = true) : ReadsIn dialect st c.lexeme rest := by
  cases c with
  | hex mark isMark ds =>
    refine ⟨by simp [lexeme, text, Digits.text], next?_of_rule? (by simp [lexeme, kind]) ?_⟩
    exact rule?_hex hrest isMark ds
  | bin mark isMark ds =>
    refine ⟨by simp [lexeme, text, Digits.text], next?_of_rule? (by simp [lexeme, kind]) ?_⟩
    exact rule?_bin isMark ds (not_isIdentifier_of_ends hrest)
  | dec sign isSign ds =>
    refine ⟨by simp [lexeme, text], next?_of_rule? (by simp [lexeme, kind]) ?_⟩
    exact rule?_dec hrest hsigned isSign ds
  | udec ds => exact (reads_udec hrest ds).readsIn st
  | char c =>
    refine ⟨by simp [lexeme, text], next?_of_rule? (by simp [lexeme, kind]) ?_⟩
    exact rule?_char c

end Constant

/-! ## Signs that stand alone -/

/-- A byte that no rule accepts is a symbol. -/
theorem next?_symbol {st : State} {b : UInt8} {rest : Text} (hrule : rule? dialect st (b :: rest) = none)
    (hlow : 0x20 < b) (hhigh : b < 0x7F) (hidentifier : isIdentifier b = false)
    (hlong : ∀ s ∈ dialect.multiSymbols, s.head?.any (· != b)) :
    next? dialect st (b :: rest) = some ⟨.symbol, [b]⟩ := by
  have hlong? : (dialect.multiSymbols.find? fun s => s.isPrefixOf (b :: rest)) = none := by
    rw [List.find?_eq_none]
    intro s hs
    have hhead := hlong s hs
    cases s with
    | nil => simp at hhead
    | cons c s => simp_all
  rw [next?, hrule]
  simp [symbolLength, hlong?, hlow, hhigh, hidentifier]

/-- A sign stands alone where it cannot belong to a number. -/
theorem readsIn_sign {st : State} {b : UInt8} (hb : b = 0x2D ∨ b = 0x2B) (hsigned : st.signed = false)
    (rest : Text) : ReadsIn dialect st ⟨.symbol, [b]⟩ rest := by
  refine ⟨by simp, ?_⟩
  have hrule : rule? dialect st (b :: rest) = none := by
    have hbin : radix? dialect.binPrefixes isBinDigit (b :: rest) = none := by
      rcases hb with rfl | rfl <;> exact radix?_eq_none (by decide) (by decide) _ _
    have hhex : radix? dialect.hexPrefixes isHexDigit (b :: rest) = none := by
      rcases hb with rfl | rfl <;> exact radix?_eq_none (by decide) (by decide) _ _
    rcases hb with rfl | rfl <;>
      simp +decide [rule?, run?, newline?, digits?, apart, charLiteral?, stringLiteral?, hbin, hhex, hsigned]
  rcases hb with rfl | rfl <;>
    exact next?_symbol hrule (by decide) (by decide) (by decide) (by decide)

end Mos6502

end EightBit
