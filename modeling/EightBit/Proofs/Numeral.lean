import Mathlib
import EightBit.Token.Scan

/-!
# Numerals

A number is read back from its hexadecimal and from its decimal numeral, and a hexadecimal numeral with a
least number of digits has exactly this number of digits if the number fits.

* `Numeral.digits_eq`: the digits of a number are those of the library.
* `Text.length_hexUpper`: the length of a numeral.
* `Text.read?_hexUpper`, `Text.toInt?_ofInt`: the number of a numeral.
-/

namespace EightBit

namespace Numeral

theorem digitsOnto_eq {base : Nat} (hbase : 1 < base) {bound n : Nat} (hpos : 0 < n) (hbound : n < bound)
    (found : List Nat) : digitsOnto base bound n found = (Nat.digits base n).reverse ++ found := by
  -- The bound only has to exceed the number, since a quotient is smaller.
  induction bound generalizing n found with
  | zero => omega
  | succ bound ih =>
    rw [digitsOnto]
    split_ifs with hlt
    · rw [Nat.digits_of_lt base n hpos.ne' hlt]
      rfl
    · have hdiv : 0 < n / base := Nat.div_pos (by omega) (by omega)
      have hless : n / base < n := Nat.div_lt_self hpos hbase
      rw [ih hdiv (by omega), Nat.digits_def' hbase hpos, List.reverse_cons, List.append_assoc]
      rfl

/-- The digits of a number are those of the library, the highest first; zero has a digit too. -/
theorem digits_eq {base : Nat} (hbase : 1 < base) (n : Nat) :
    digits base n = if n = 0 then [0] else (Nat.digits base n).reverse := by
  split_ifs with hzero
  · rw [hzero, digits_of_lt (by omega)]
  · rw [digits, digitsOnto_eq hbase (by omega) (by omega), List.append_nil]

theorem digits_lt {base n d : Nat} (hbase : 1 < base) (hd : d ∈ digits base n) : d < base := by
  rw [digits_eq hbase] at hd
  split_ifs at hd
  · rw [List.mem_singleton.1 hd]
    omega
  · exact Nat.digits_lt_base hbase (List.mem_reverse.1 hd)

theorem length_digits_le {base n width : Nat} (hbase : 1 < base) (hwidth : 0 < width)
    (hn : n < base ^ width) : (digits base n).length ≤ width := by
  rw [digits_eq hbase]
  split_ifs
  · exact hwidth
  · rw [List.length_reverse]
    exact (Nat.digits_length_le_iff hbase n).2 hn

theorem digits_ne_nil {base : Nat} (hbase : 1 < base) (n : Nat) : digits base n ≠ [] := by
  rw [digits_eq hbase]
  split_ifs with hzero
  · simp
  · simpa [Nat.digits_eq_nil_iff_eq_zero] using hzero

theorem value_eq (base : Nat) (ds : List Nat) : value base ds = Nat.ofDigits base ds.reverse := by
  induction ds using List.reverseRecOn with
  | nil => rfl
  | append_singleton ds d ih =>
    rw [List.reverse_concat, Nat.ofDigits_cons, ← ih]
    simp only [value, List.foldl_append, List.foldl_cons, List.foldl_nil]
    ring

/-- A number is read back from its digits. -/
theorem value_digits {base : Nat} (hbase : 1 < base) (n : Nat) : value base (digits base n) = n := by
  rw [value_eq, digits_eq hbase]
  split_ifs with hzero
  · simp [hzero]
  · rw [List.reverse_reverse, Nat.ofDigits_digits]

/-- Zeros in front do not change the value. -/
theorem value_replicate_append (base k : Nat) (ds : List Nat) :
    value base (List.replicate k 0 ++ ds) = value base ds := by
  induction k with
  | zero => rfl
  | succ k ih =>
    rw [List.replicate_succ, List.cons_append, ← ih]
    simp [value]

/-- Digits are read back from their bytes. -/
theorem mapM_digitIn? {base : Nat} {ten : Char} (hbase : ∀ d < base, digitIn? base (digitByte ten d) = some d)
    {ds : List Nat} (hds : ∀ d ∈ ds, d < base) :
    (ds.map (digitByte ten)).mapM (digitIn? base) = some ds := by
  induction ds with
  | nil => rfl
  | cons d rest ih =>
    rw [List.map_cons, List.mapM_cons, hbase d (hds d List.mem_cons_self),
      ih fun k hk => hds k (List.mem_cons_of_mem d hk)]
    rfl

end Numeral

namespace Text

open Numeral

/-! ## Hexadecimal numerals -/

/-- The digits of a hexadecimal numeral with a least number of digits. -/
def hexDigits (width n : Nat) : List Nat :=
  List.replicate (width - (digits 16 n).length) 0 ++ digits 16 n

theorem hexUpper_eq (width n : Nat) : hexUpper width n = (hexDigits width n).map (digitByte 'A') := by
  rw [hexUpper, padZero, hexDigits, List.map_append, List.map_replicate, List.length_map]
  rfl

theorem hexDigits_lt {width n d : Nat} (hd : d ∈ hexDigits width n) : d < 16 := by
  rcases List.mem_append.1 hd with hd | hd
  · rw [(List.mem_replicate.1 hd).2]
    decide
  · exact digits_lt (by decide) hd

/-- A numeral of a number that fits has exactly the least number of digits. -/
theorem length_hexUpper {width n : Nat} (hwidth : 0 < width) (hn : n < 16 ^ width) :
    (hexUpper width n).length = width := by
  have hle := length_digits_le (by decide) hwidth hn
  rw [hexUpper_eq, List.length_map, hexDigits, List.length_append, List.length_replicate]
  omega

theorem hexUpper_ne_nil (width n : Nat) : hexUpper width n ≠ [] := by
  simp [hexUpper_eq, hexDigits, digits_ne_nil]

/-- Every byte of a hexadecimal numeral is a digit. -/
theorem isHexDigit_of_mem_hexUpper {width n : Nat} {b : UInt8} (hb : b ∈ hexUpper width n) :
    Scan.isHexDigit b := by
  have hall : ∀ d < 16, Scan.isHexDigit (digitByte 'A' d) := by decide
  rw [hexUpper_eq] at hb
  obtain ⟨d, hd, rfl⟩ := List.mem_map.1 hb
  exact hall d (hexDigits_lt hd)

/-- A number is read back from its numeral. -/
theorem read?_hexUpper (width n : Nat) : read? 16 (hexUpper width n) = some n := by
  obtain ⟨b, rest, hcons⟩ := List.exists_cons_of_ne_nil (hexUpper_ne_nil width n)
  rw [hcons, read?, ← hcons, hexUpper_eq, mapM_digitIn? (by decide) fun d hd => hexDigits_lt hd,
    Option.map_some, hexDigits, value_replicate_append, value_digits (by decide)]
  exact List.cons_ne_nil b rest

/-! ## Decimal numerals -/

theorem map_digit?_ofNat (n : Nat) : (ofNat n).map digit? = (digits 10 n).map some := by
  have hall : ∀ d < 10, digit? (digitByte 'a' d) = some d := by decide
  rw [ofNat, List.map_map]
  exact List.map_congr_left fun d hd => hall d (digits_lt (by decide) hd)

theorem ofNat_injective : Function.Injective ofNat := by
  intro n k h
  have hdigits : digits 10 n = digits 10 k := by
    refine List.map_injective_iff.2 (Option.some_injective Nat) ?_
    rw [← map_digit?_ofNat, h, map_digit?_ofNat]
  rw [← value_digits (by decide : 1 < 10) n, hdigits, value_digits (by decide)]

theorem underscore_not_mem_ofNat (n : Nat) : 0x5F ∉ ofNat n := by
  intro hmem
  have hdigit := List.mem_map_of_mem (f := digit?) hmem
  rw [map_digit?_ofNat] at hdigit
  obtain ⟨d, -, hd⟩ := List.mem_map.1 hdigit
  have hnone : digit? 0x5F = none := by decide
  rw [hnone] at hd
  cases hd

theorem ofNat_ne_nil (n : Nat) : ofNat n ≠ [] := by
  simp [ofNat, digits_ne_nil]

/-- Every byte of a decimal numeral is a digit. -/
theorem isDigit_of_mem_ofNat {n : Nat} {b : UInt8} (hb : b ∈ ofNat n) : Scan.isDigit b := by
  have hall : ∀ d < 10, Scan.isDigit (digitByte 'a' d) := by decide
  obtain ⟨d, hd, rfl⟩ := List.mem_map.1 hb
  exact hall d (digits_lt (by decide) hd)

theorem read?_ofNat (n : Nat) : read? 10 (ofNat n) = some n := by
  obtain ⟨b, rest, hcons⟩ := List.exists_cons_of_ne_nil (ofNat_ne_nil n)
  rw [hcons, read?, ← hcons, ofNat, mapM_digitIn? (by decide) fun d hd => digits_lt (by decide) hd,
    Option.map_some, value_digits (by decide)]
  exact List.cons_ne_nil b rest

theorem toInt?_ofNat (n : Nat) : toInt? 10 (ofNat n) = some (n : Int) := by
  -- The first two cases are signs, which are no digits.
  unfold toInt?
  split
  next rest heq => exact absurd (isDigit_of_mem_ofNat (heq ▸ List.mem_cons_self)) (by decide)
  next rest heq => exact absurd (isDigit_of_mem_ofNat (heq ▸ List.mem_cons_self)) (by decide)
  next =>
    rw [read?_ofNat]
    rfl

/-- An integer is read back from its numeral. -/
theorem toInt?_ofInt (i : Int) : toInt? 10 (ofInt i) = some i := by
  cases i with
  | ofNat n => exact toInt?_ofNat n
  | negSucc n =>
    rw [ofInt, toInt?, read?_ofNat]
    rfl

theorem underscore_not_mem_ofInt (i : Int) : 0x5F ∉ ofInt i := by
  cases i with
  | ofNat n => exact underscore_not_mem_ofNat n
  | negSucc n =>
    rw [ofInt, List.mem_cons, not_or]
    exact ⟨by decide, underscore_not_mem_ofNat (n + 1)⟩

end Text

end EightBit
