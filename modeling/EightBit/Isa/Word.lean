/-!
# Words

Addresses and values are words of 64 bits, and memory holds bytes. A word is written to bytes in one of
two orders; words of more than eight bytes are filled up with zero bytes.

* `Word.mask`: the word whose lowest bits are set.
* `Word.signExtend`: the low bytes of a word as two's complement.
* `ByteOrder.encode`, `ByteOrder.decode`: words as bytes and back.
-/

namespace EightBit

/-- The order in which the bytes of a word stand in memory. -/
inductive ByteOrder
  /-- The lowest byte first. -/
  | little
  /-- The highest byte first. -/
  | big
deriving DecidableEq, Repr

namespace Word

/-- The word in which bit `n` alone is set; zero beyond the last bit. -/
def bit (n : Nat) : UInt64 := if n < 64 then 1 <<< n.toUInt64 else 0

/-- The word whose lowest `n` bits are set. -/
def mask (n : Nat) : UInt64 := if n < 64 then bit n - 1 else -1

/-- The low `size` bytes of a word as two's complement; the whole word if there is no such part. -/
def signExtend (value : UInt64) (size : Nat) : Int :=
  if size = 0 ∨ 8 ≤ size then value.toBitVec.toInt
  else (value.toBitVec.setWidth (8 * size)).toInt

/-- A word as two's complement. -/
def toInt (value : UInt64) : Int := value.toBitVec.toInt

/-- The low `size` bytes of a word, the lowest first. -/
def littleBytes : Nat → UInt64 → List UInt8
  | 0, _ => []
  | size + 1, value => value.toUInt8 :: littleBytes size (value >>> 8)

/-- The word whose bytes are given, the lowest first. -/
def ofLittleBytes : List UInt8 → UInt64
  | [] => 0
  | b :: rest => b.toUInt64 ||| (ofLittleBytes rest <<< 8)

@[simp] theorem length_littleBytes (size : Nat) (value : UInt64) :
    (littleBytes size value).length = size := by
  induction size generalizing value with
  | zero => rfl
  | succ size ih => simp [littleBytes, ih]

end Word

namespace ByteOrder

/-- The low `size` bytes of a word. -/
def encode (order : ByteOrder) (value : UInt64) (size : Nat) : List UInt8 :=
  match order with
  | little => Word.littleBytes size value
  | big => (Word.littleBytes size value).reverse

/-- The word that bytes stand for. -/
def decode (order : ByteOrder) (bytes : List UInt8) : UInt64 :=
  match order with
  | little => Word.ofLittleBytes bytes
  | big => Word.ofLittleBytes bytes.reverse

@[simp] theorem length_encode (order : ByteOrder) (value : UInt64) (size : Nat) :
    (order.encode value size).length = size := by
  cases order <;> simp [encode]

end ByteOrder

end EightBit
