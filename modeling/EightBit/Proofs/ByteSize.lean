import Mathlib
import EightBit.Assembly.Encode
import EightBit.Proofs.Word

/-!
# Sizes of numbers

How many bytes a number takes is asked twice: operands are counted up from one byte until their size is found, and
values of data directives are compared with the bounds of a given size. The count is made in words, where the bound of
eight bytes cannot be written as a positive number, and still ends there for the least number of all. Both agree, and
both are exact: they tell whether some bytes of the size stand for the number.

* `fitsBytes`: the bounds of a size in the integers; `IsRepresentable`: some bytes of the size stand for the number.
* `outgrows_eq`: the test of the count has these bounds.
* `byteSize_le_iff`: the size of a number tells its range.
* `byteSize_exact`: the size is the least one, and the two checks agree.
-/

namespace EightBit

/-! ## Bounds -/

/-- Whether a number is representable in `size` bytes: as two's complement if negative, else unsigned. -/
def fitsBytes (n : Int) (size : Nat) : Bool :=
  if n < 0 then -Int.pow 2 (8 * size - 1) ≤ n else n < Int.pow 2 (8 * size)

/-- The least number with a sign bit is found in words, up to the highest bit, which is its own negative. -/
theorem Word.toInt_neg_bit {n : Nat} (hn : n < 64) : toInt (-bit n) = -2 ^ n := by
  have hbit := toNat_bit hn
  have hle : (2 : Nat) ^ n ≤ 2 ^ 63 := Nat.pow_le_pow_right (by decide) (by omega)
  have hpos : 0 < (2 : Nat) ^ n := Nat.two_pow_pos n
  have hneg : (-bit n).toNat = 2 ^ 64 - 2 ^ n := by
    rw [UInt64.toNat_neg, hbit]
    exact Nat.mod_eq_of_lt (Nat.sub_lt (by decide) hpos)
  have hcast : ((2 ^ n : Nat) : Int) = 2 ^ n := by push_cast; rfl
  rw [toInt, BitVec.toInt_eq_toNat_cond, UInt64.toNat_toBitVec, hneg, ← hcast]
  omega

theorem fitsBytes_mono {v : Int} {size size' : Nat} (hle : size ≤ size') (h : fitsBytes v size) :
    fitsBytes v size' := by
  have hpow : ∀ {m n : Nat}, m ≤ n → Int.pow 2 m ≤ Int.pow 2 n := by
    intro m n hmn
    simpa only [Int.pow_eq] using pow_le_pow_right₀ (by decide : (1 : Int) ≤ 2) hmn
  unfold fitsBytes at h ⊢
  split_ifs at h ⊢
  · have hlow := hpow (show 8 * size - 1 ≤ 8 * size' - 1 by omega)
    simp only [decide_eq_true_eq] at h ⊢
    omega
  · have hhigh := hpow (show 8 * size ≤ 8 * size' by omega)
    simp only [decide_eq_true_eq] at h ⊢
    omega

/-- Below eight bytes, a number outgrows a size if it is out of its bounds. -/
theorem outgrows_eq (n : Int) {size : Nat} (hpos : 1 ≤ size) (hsize : size < 8) :
    outgrows n size = !fitsBytes n size := by
  have hlow : Word.toInt (-Word.bit (8 * size - 1)) = -2 ^ (8 * size - 1) := Word.toInt_neg_bit (by omega)
  have hhigh : (Word.bit (8 * size)).toNat = 2 ^ (8 * size) := Word.toNat_bit (by omega)
  unfold outgrows fitsBytes
  rw [hlow, hhigh, Int.pow_eq, Int.pow_eq]
  push_cast
  split_ifs
  · simp only [← decide_not, not_le]
  · simp only [← decide_not, not_lt, hsize, decide_true, Bool.true_and]

/-- No number of signed 64 bits outgrows eight bytes. -/
theorem outgrows_eight {n : Int} (hlow : -2 ^ 63 ≤ n) : outgrows n 8 = false := by
  have hbound : Word.toInt (-Word.bit (8 * 8 - 1)) = -2 ^ 63 := Word.toInt_neg_bit (by decide)
  unfold outgrows
  rw [hbound]
  split_ifs
  · exact decide_eq_false (by omega)
  · rfl

/-! ## The count -/

section Count

variable {test : Nat → Bool} {steps k : Nat}

theorem le_countWhile : k ≤ countWhile test steps k := by
  fun_induction countWhile test steps k with
  | case1 => exact le_rfl
  | case2 _ _ _ ih => omega
  | case3 => exact le_rfl

theorem countWhile_le : countWhile test steps k ≤ k + steps := by
  fun_induction countWhile test steps k with
  | case1 => exact le_rfl
  | case2 _ _ _ ih => omega
  | case3 => omega

/-- The test holds as long as the count goes on. -/
theorem test_of_lt_countWhile {j : Nat} (hk : k ≤ j) (hj : j < countWhile test steps k) : test j := by
  fun_induction countWhile test steps k with
  | case1 => omega
  | case2 steps k htest ih =>
    -- The count goes on from `k + 1`, so its own start is left to the test that was made.
    rcases hk.eq_or_lt with rfl | hlt
    · exact htest
    · exact ih hlt hj
  | case3 => omega

/-- The test fails where the count ends, unless the steps are used up. -/
theorem test_countWhile (h : countWhile test steps k < k + steps) : test (countWhile test steps k) = false := by
  fun_induction countWhile test steps k with
  | case1 => omega
  | case2 steps k htest ih => exact ih (by omega)
  | case3 steps k htest => simpa using htest

end Count

theorem one_le_byteSize (n : Int) : 1 ≤ byteSize n := le_countWhile

theorem byteSize_le_eight (n : Int) : byteSize n ≤ 8 := countWhile_le

/-- The size of a number tells its range. -/
theorem byteSize_le_iff (n : Int) {size : Nat} (hpos : 1 ≤ size) (hsize : size < 8) :
    byteSize n ≤ size ↔ fitsBytes n size := by
  constructor
  · -- A count that ends early was ended by its test.
    intro hle
    have hlt : byteSize n < 8 := by omega
    have htest : outgrows n (byteSize n) = false := test_countWhile hlt
    rw [outgrows_eq n (one_le_byteSize n) hlt, Bool.not_eq_false'] at htest
    exact fitsBytes_mono hle htest
  · -- A count that goes past a size has tested it.
    intro hfits
    by_contra hgt
    have htest : outgrows n size := test_of_lt_countWhile hpos (not_le.1 hgt)
    rw [outgrows_eq n hpos hsize, hfits] at htest
    cases htest

/-! ## Exactness -/

/-- Some `size` bytes stand for a number: as two's complement if it is negative, else unsigned. -/
def IsRepresentable (n : Int) (size : Nat) : Prop :=
  if n < 0 then ∃ b : BitVec (8 * size), b.toInt = n else ∃ b : BitVec (8 * size), (b.toNat : Int) = n

/-- A number is representable in a size if it is within its bounds. -/
theorem isRepresentable_iff (n : Int) {size : Nat} (hpos : 1 ≤ size) : IsRepresentable n size ↔ fitsBytes n size := by
  -- Two's complement gives half of its range to the negative numbers.
  have hsplit : (2 : Int) ^ (8 * size) = 2 * 2 ^ (8 * size - 1) := by
    rw [← pow_succ']
    congr 1
    omega
  unfold IsRepresentable fitsBytes
  rw [Int.pow_eq, Int.pow_eq]
  split_ifs with hneg
  · rw [decide_eq_true_eq]
    constructor
    · rintro ⟨b, rfl⟩
      exact BitVec.le_toInt b
    · intro hlow
      refine ⟨BitVec.ofInt (8 * size) n, ?_⟩
      have hhalf : (0 : Int) < 2 ^ (8 * size - 1) := by positivity
      exact BitVec.toInt_ofInt_eq_self (by omega) hlow (by omega)
  · rw [decide_eq_true_eq]
    constructor
    · rintro ⟨b, rfl⟩
      exact_mod_cast b.isLt
    · intro hhigh
      obtain ⟨k, rfl⟩ := Int.eq_ofNat_of_zero_le (not_lt.1 hneg)
      have hk : k < 2 ^ (8 * size) := by exact_mod_cast hhigh
      exact ⟨BitVec.ofNat (8 * size) k, by rw [BitVec.toNat_ofNat, Nat.mod_eq_of_lt hk]⟩

section Word

variable {n : Int} (hlow : -2 ^ 63 ≤ n) (hhigh : n < 2 ^ 63)

include hlow

theorem outgrows_byteSize : outgrows n (byteSize n) = false := by
  rcases (byteSize_le_eight n).lt_or_eq with hlt | heq
  · exact test_countWhile hlt
  · -- All steps of the count are used up, but the next test would end it too.
    rw [heq]
    exact outgrows_eight hlow

include hhigh

theorem fitsBytes_eight : fitsBytes n 8 := by
  have hpow : Int.pow 2 (8 * 8 - 1) = 2 ^ 63 ∧ Int.pow 2 (8 * 8) = 2 ^ 64 := ⟨rfl, rfl⟩
  unfold fitsBytes
  rw [hpow.1, hpow.2]
  split_ifs <;> exact decide_eq_true (by omega)

variable {size : Nat} (hpos : 1 ≤ size)

include hpos

/-- The count finds the bounds of every size. -/
theorem byteSize_le_iff_fitsBytes : byteSize n ≤ size ↔ fitsBytes n size := by
  rcases Nat.lt_or_ge size 8 with hsize | hsize
  · exact byteSize_le_iff n hpos hsize
  · exact iff_of_true ((byteSize_le_eight n).trans hsize) (fitsBytes_mono hsize (fitsBytes_eight hlow hhigh))

/-- Data is compared with the bounds of every size. -/
theorem fits_eq : Encoding.fits n size = fitsBytes n size := by
  rcases Nat.lt_or_ge size 8 with hsize | hsize
  · -- A bound of the other sign never decides.
    have hneg : (0 : Int) < 2 ^ (8 * size - 1) := by positivity
    have hnonneg : (0 : Int) < 2 ^ (8 * size) := by positivity
    unfold Encoding.fits fitsBytes
    rw [Int.pow_eq, Int.pow_eq, decide_eq_false (by omega), Bool.false_or]
    split_ifs
    · rw [decide_eq_true (show n < 2 ^ (8 * size) by omega), Bool.and_true]
    · rw [decide_eq_true (show -2 ^ (8 * size - 1) ≤ n by omega), Bool.true_and]
  · -- From eight bytes on, every number of 64 bits is accepted without a comparison.
    rw [fitsBytes_mono hsize (fitsBytes_eight hlow hhigh), Encoding.fits, decide_eq_true hsize, Bool.true_or]

end Word

/-- The size of a number of signed 64 bits is the least number of bytes in which it is representable. It is found by a
count that its own test ends, whose bounds are exact in words, and it is what data is compared with. -/
theorem byteSize_exact (v : Int64) :
    (1 ≤ byteSize v.toInt ∧ byteSize v.toInt ≤ 8) ∧
      IsLeast {s | 1 ≤ s ∧ IsRepresentable v.toInt s} (byteSize v.toInt) ∧
      (∀ s, 1 ≤ s → s < byteSize v.toInt → outgrows v.toInt s) ∧
      outgrows v.toInt (byteSize v.toInt) = false ∧
      (∀ s, 1 ≤ s → s ≤ 8 → Word.toInt (-Word.bit (8 * s - 1)) = -2 ^ (8 * s - 1) ∧
        (s < 8 → (Word.bit (8 * s)).toNat = 2 ^ (8 * s))) ∧
      ∀ s, 1 ≤ s → (byteSize v.toInt ≤ s ↔ Encoding.fits v.toInt s) := by
  have hlow : -2 ^ 63 ≤ v.toInt := v.le_toInt
  have hhigh : v.toInt < 2 ^ 63 := v.toInt_lt
  have hone := one_le_byteSize v.toInt
  have hrepresentable : ∀ s, 1 ≤ s → (IsRepresentable v.toInt s ↔ byteSize v.toInt ≤ s) := by
    intro s hs
    rw [isRepresentable_iff v.toInt hs, byteSize_le_iff_fitsBytes hlow hhigh hs]
  refine ⟨⟨hone, byteSize_le_eight v.toInt⟩, ⟨⟨hone, (hrepresentable _ hone).2 le_rfl⟩, ?_⟩, ?_,
    outgrows_byteSize hlow, ?_, ?_⟩
  · rintro s ⟨hs, hrep⟩
    exact (hrepresentable s hs).1 hrep
  · intro s hs hlt
    exact test_of_lt_countWhile hs hlt
  · intro s hs hle
    exact ⟨Word.toInt_neg_bit (by omega), fun hlt => Word.toNat_bit (by omega)⟩
  · intro s hs
    rw [fits_eq hlow hhigh hs, byteSize_le_iff_fitsBytes hlow hhigh hs]

end EightBit
