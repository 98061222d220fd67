import Mathlib
import EightBit.Isa.Word

/-!
# Words and bytes

Masks cut words to their low bits, and the bytes of a word determine its low bits.

* `Word.toNat_and_mask`: a masked word is a remainder.
* `Word.distance_and_mask`: a distance of one byte is recovered from the address that it leads to.
* `Word.ofInt_signExtend_one`: a word in the range of a signed byte is recovered from its lowest byte.
* `Word.littleBytes_ofLittleBytes`, `ByteOrder.encode_decode`: at most eight bytes survive a word.
* `ByteOrder.decode_encode`: the low bytes of a word survive being written.
-/

namespace EightBit

namespace Word

/-- A number of fewer than 64 bits is unchanged as a word. -/
theorem toNat_toUInt64 {n : Nat} (hn : n < 2 ^ 64) : n.toUInt64.toNat = n :=
  UInt64.toNat_ofNat_of_lt' hn

/-- A single bit of a word is a power of two. -/
theorem toNat_bit {n : Nat} (hn : n < 64) : (bit n).toNat = 2 ^ n := by
  have hpow : 2 ^ n < 2 ^ 64 := Nat.pow_lt_pow_right (by decide) hn
  have hshift : n.toUInt64.toNat % 64 = n := by
    rw [toNat_toUInt64 (by omega), Nat.mod_eq_of_lt hn]
  rw [bit, if_pos hn, UInt64.toNat_shiftLeft, hshift]
  simpa [Nat.shiftLeft_eq] using Nat.mod_eq_of_lt hpow

/-- The mask of fewer than 64 bits is the number below the next power of two. -/
theorem toNat_mask {n : Nat} (hn : n < 64) : (mask n).toNat = 2 ^ n - 1 := by
  have hpos : 1 ≤ 2 ^ n := Nat.one_le_two_pow
  have hle : (1 : UInt64) ≤ bit n := by
    rw [UInt64.le_iff_toNat_le, toNat_bit hn]
    simpa using hpos
  rw [mask, if_pos hn, UInt64.toNat_sub_of_le _ _ hle, toNat_bit hn]
  rfl

/-- Cutting a word to its lowest bits leaves its remainder. -/
theorem toNat_and_mask (x : UInt64) {n : Nat} (hn : n < 64) : (x &&& mask n).toNat = x.toNat % 2 ^ n := by
  rw [UInt64.toNat_and, toNat_mask hn, Nat.and_two_pow_sub_one_eq_mod]

/-- A word below a power of two is its own remainder. -/
theorem and_mask_of_lt {x : UInt64} {n : Nat} (hn : n < 64) (hx : x.toNat < 2 ^ n) : x &&& mask n = x := by
  apply UInt64.toNat_inj.1
  rw [toNat_and_mask x hn, Nat.mod_eq_of_lt hx]

/-- A sum cut to its lowest bits does not change if a summand is cut before. -/
theorem and_mask_add_and_mask (x y : UInt64) {n : Nat} (hn : n < 64) :
    ((x &&& mask n) + y) &&& mask n = (x + y) &&& mask n := by
  have hdvd : 2 ^ n ∣ 2 ^ 64 := pow_dvd_pow 2 hn.le
  apply UInt64.toNat_inj.1
  rw [toNat_and_mask _ hn, toNat_and_mask _ hn, UInt64.toNat_add, UInt64.toNat_add, toNat_and_mask _ hn,
    Nat.mod_mod_of_dvd _ hdvd, Nat.mod_mod_of_dvd _ hdvd, Nat.mod_add_mod]

theorem toNat_ofInt (i : Int) : (UInt64.ofInt i).toNat = (i % 2 ^ 64).toNat := by
  have hlt := Int.emod_lt_of_pos i (b := 2 ^ 64) (by decide)
  rw [UInt64.ofInt, UInt64.toNat_ofNat_of_lt']
  change _ < 2 ^ 64
  omega

theorem ofInt_toNat (x : UInt64) : UInt64.ofInt (x.toNat : Int) = x := by
  have hx := x.toNat_lt
  apply UInt64.toNat_inj.1
  rw [toNat_ofInt]
  omega

/-- A number of signed 64 bits is read back from its word. -/
theorem toInt_ofInt {i : Int} (hlow : -2 ^ 63 ≤ i) (hhigh : i < 2 ^ 63) : toInt (UInt64.ofInt i) = i := by
  have hnat : (UInt64.ofInt i).toBitVec.toNat = (i % 2 ^ 64).toNat := toNat_ofInt i
  rw [toInt, BitVec.toInt_eq_toNat_cond, hnat]
  omega

theorem signExtend_one_eq (x : UInt64) :
    signExtend x 1 = ((x.toNat % 2 ^ 8 : Nat) : Int).bmod (2 ^ 8) := by
  rw [signExtend, if_neg (by decide), BitVec.toInt_eq_toNat_bmod, BitVec.toNat_setWidth,
    UInt64.toNat_toBitVec]

/-- Extending the sign of a byte keeps the byte. -/
theorem toNat_signExtend_one (x : UInt64) :
    (UInt64.ofInt (signExtend x 1)).toNat % 2 ^ 8 = x.toNat % 2 ^ 8 := by
  -- Both signs differ from the byte by a multiple of 256.
  rw [toNat_ofInt, signExtend_one_eq, Int.bmod]
  split_ifs <;> omega

/-- A word in the range of a signed byte is recovered from its lowest byte. -/
theorem ofInt_signExtend_one {x : UInt64} (hlow : -128 ≤ toInt x) (hhigh : toInt x < 128) :
    UInt64.ofInt (signExtend (x &&& mask 8) 1) = x := by
  have hx := x.toNat_lt
  have htoInt : toInt x = (x.toNat : Int).bmod (2 ^ 64) := by
    rw [toInt, BitVec.toInt_eq_toNat_bmod, UInt64.toNat_toBitVec]
  apply UInt64.toNat_inj.1
  rw [toNat_ofInt, signExtend_one_eq, toNat_and_mask x (by decide)]
  rw [htoInt, Int.bmod] at hlow hhigh
  rw [Int.bmod]
  split_ifs at hlow hhigh ⊢ <;> omega

/-- A distance of one byte is recovered from the 16-bit address that it leads to. -/
theorem distance_and_mask {x : UInt64} (hx : x.toNat < 2 ^ 8) (next : UInt64) :
    (((next + UInt64.ofInt (signExtend x 1)) &&& mask 16) - next) &&& mask 8 = x := by
  have hsign := toNat_signExtend_one x
  have hnext := next.toNat_lt
  apply UInt64.toNat_inj.1
  -- Cutting to 16 and to 64 bits both keep remainders modulo 256, where the next address cancels.
  rw [toNat_and_mask _ (by decide), UInt64.toNat_sub, toNat_and_mask _ (by decide), UInt64.toNat_add]
  omega

/-- The larger of two words is not below either of them, and is one of them. -/
theorem max_spec (a b : UInt64) : a ≤ max a b ∧ b ≤ max a b ∧ (max a b = a ∨ max a b = b) := by
  have hmax : max a b = if a ≤ b then b else a := rfl
  rw [hmax]
  split
  next h => exact ⟨h, UInt64.le_refl b, .inr rfl⟩
  next h => exact ⟨UInt64.le_refl a, UInt64.le_of_lt (UInt64.not_le.1 h), .inl rfl⟩

theorem toNat_ofLittleBytes_cons (b : UInt8) (rest : List UInt8)
    (hrest : (ofLittleBytes rest).toNat < 2 ^ 56) :
    (ofLittleBytes (b :: rest)).toNat = b.toNat + 2 ^ 8 * (ofLittleBytes rest).toNat := by
  have hshift : (ofLittleBytes rest <<< 8).toNat = 2 ^ 8 * (ofLittleBytes rest).toNat := by
    rw [UInt64.toNat_shiftLeft, Nat.shiftLeft_eq, Nat.mul_comm]
    exact Nat.mod_eq_of_lt (by simp; omega)
  rw [ofLittleBytes, UInt64.toNat_or, hshift, UInt8.toNat_toUInt64, Nat.or_comm,
    ← Nat.two_pow_add_eq_or_of_lt (UInt8.toNat_lt b), Nat.add_comm]

/-- Bytes make up a word below the power of two of their number of bits. -/
theorem toNat_ofLittleBytes_lt (bytes : List UInt8) (hlen : bytes.length ≤ 8) :
    (ofLittleBytes bytes).toNat < 2 ^ (8 * bytes.length) := by
  induction bytes with
  | nil => simp [ofLittleBytes]
  | cons b rest ih =>
    have hshort : rest.length < 8 := by simpa using hlen
    have hlt := ih (by omega)
    have hrest : (ofLittleBytes rest).toNat < 2 ^ 56 :=
      Nat.lt_of_lt_of_le hlt (Nat.pow_le_pow_right (by decide) (by omega))
    have hpow : 2 ^ (8 * (b :: rest).length) = 2 ^ 8 * 2 ^ (8 * rest.length) := by
      rw [List.length_cons, ← Nat.pow_add]
      congr 1
      omega
    have hb := UInt8.toNat_lt b
    rw [toNat_ofLittleBytes_cons b rest hrest, hpow]
    omega

theorem toNat_ofLittleBytes_lt_of_short {bytes : List UInt8} (hlen : bytes.length < 8) :
    (ofLittleBytes bytes).toNat < 2 ^ 56 :=
  Nat.lt_of_lt_of_le (toNat_ofLittleBytes_lt bytes hlen.le) (Nat.pow_le_pow_right (by decide) (by omega))

/-- The bytes of a word of at most eight bytes are the bytes that it was made of. -/
theorem littleBytes_ofLittleBytes (bytes : List UInt8) (hlen : bytes.length ≤ 8) :
    littleBytes bytes.length (ofLittleBytes bytes) = bytes := by
  induction bytes with
  | nil => rfl
  | cons b rest ih =>
    have hshort : rest.length < 8 := by simpa using hlen
    have hword := toNat_ofLittleBytes_cons b rest (toNat_ofLittleBytes_lt_of_short hshort)
    have hb := UInt8.toNat_lt b
    have hlow : (ofLittleBytes (b :: rest)).toUInt8 = b := by
      apply UInt8.toNat_inj.1
      rw [UInt64.toNat_toUInt8, hword]
      omega
    have hhigh : ofLittleBytes (b :: rest) >>> 8 = ofLittleBytes rest := by
      apply UInt64.toNat_inj.1
      rw [UInt64.toNat_shiftRight, hword, Nat.shiftRight_eq_div_pow]
      simp
      omega
    rw [List.length_cons, littleBytes, hlow, hhigh, ih (by omega)]

/-- The low bytes of a word are its remainder. -/
theorem toNat_ofLittleBytes_littleBytes (size : Nat) (hsize : size ≤ 8) (value : UInt64) :
    (ofLittleBytes (littleBytes size value)).toNat = value.toNat % 2 ^ (8 * size) := by
  induction size generalizing value with
  | zero => simp [littleBytes, ofLittleBytes, Nat.mod_one]
  | succ size ih =>
    have hrest : (ofLittleBytes (littleBytes size (value >>> 8))).toNat < 2 ^ 56 :=
      toNat_ofLittleBytes_lt_of_short (by rw [length_littleBytes]; omega)
    have hshift : (value >>> 8).toNat = value.toNat / 2 ^ 8 := by
      rw [UInt64.toNat_shiftRight, Nat.shiftRight_eq_div_pow]
      rfl
    rw [littleBytes, toNat_ofLittleBytes_cons _ _ hrest, ih (by omega), hshift, UInt64.toNat_toUInt8,
      Nat.mul_succ, Nat.add_comm (8 * size), Nat.pow_add, Nat.mod_mul]

end Word

namespace ByteOrder

/-- At most eight bytes survive being read as a word and written again. -/
theorem encode_decode (order : ByteOrder) (bytes : List UInt8) (hlen : bytes.length ≤ 8) :
    order.encode (order.decode bytes) bytes.length = bytes := by
  cases order with
  | little => exact Word.littleBytes_ofLittleBytes bytes hlen
  | big =>
    have h := Word.littleBytes_ofLittleBytes bytes.reverse (by simpa using hlen)
    rw [List.length_reverse] at h
    rw [encode, decode, h, List.reverse_reverse]

/-- The low bytes of a word, written and read again, are its remainder. -/
theorem toNat_decode_encode (order : ByteOrder) (value : UInt64) {size : Nat} (hsize : size ≤ 8) :
    (order.decode (order.encode value size)).toNat = value.toNat % 2 ^ (8 * size) := by
  rw [← Word.toNat_ofLittleBytes_littleBytes size hsize]
  cases order with
  | little => rfl
  | big => rw [encode, decode, List.reverse_reverse]

/-- The low bytes of a word survive being written and read again. -/
theorem decode_encode (order : ByteOrder) (value : UInt64) {size : Nat} (hsize : size < 8) :
    order.decode (order.encode value size) = value &&& Word.mask (8 * size) := by
  apply UInt64.toNat_inj.1
  rw [Word.toNat_and_mask _ (by omega), toNat_decode_encode order value hsize.le]

end ByteOrder

end EightBit
