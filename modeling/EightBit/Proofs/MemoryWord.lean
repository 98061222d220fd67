import Mathlib
import EightBit.Mos6502.Architecture
import EightBit.Proofs.Memory

/-!
# Words in memory

An architecture writes words as bytes, and a memory writes words to addresses. Both take the order of bytes from the
same setting, and both have a default where there is none. They agree: a word that was encoded and loaded is the word
that the memory reads, and it leaves the bytes that the memory would have written itself. Nothing in this depends on
where a word stands, so that it may wrap around the top of the memory.

* `ByteOrder.rank`, `ByteOrder.getElem?_encode`: which byte of a word stands where.
* `Memory.writeBytes_eq`: bytes are written as they are loaded, but for their marks.
* `Memory.Receives`: a memory as it is after a word was put into another one.
* `Architecture.encode_agrees`: encoder, decoder and memory agree.
-/

namespace EightBit

/-! ## The bytes of a word -/

namespace Word

/-- The bytes of a word are its digits to the base 256. -/
theorem getElem?_littleBytes {size n : Nat} (hn : n < size) (value : UInt64) :
    (littleBytes size value)[n]? = some (value.toNat >>> (8 * n)).toUInt8 := by
  induction size generalizing n value with
  | zero => omega
  | succ size ih =>
    cases n with
    | zero =>
      rw [littleBytes, List.getElem?_cons_zero]
      simp
    | succ n =>
      have hshift : (value >>> 8).toNat = value.toNat >>> 8 := by
        rw [UInt64.toNat_shiftRight]
        rfl
      rw [littleBytes, List.getElem?_cons_succ, ih (by omega), hshift, ← Nat.shiftRight_add, Nat.mul_succ,
        Nat.add_comm 8]

end Word

namespace ByteOrder

/-- Which byte of a word, counted from the lowest, stands at place `n` of its `size` bytes. -/
def rank (order : ByteOrder) (size n : Nat) : Nat :=
  match order with
  | little => n
  | big => size - 1 - n

/-- Each byte of an encoded word is shifted out of the word by its rank. -/
theorem getElem?_encode (order : ByteOrder) (value : UInt64) {size n : Nat} (hn : n < size) :
    (order.encode value size)[n]? = some (value.toNat >>> (8 * order.rank size n)).toUInt8 := by
  cases order with
  | little => exact Word.getElem?_littleBytes hn value
  | big =>
    rw [encode, List.getElem?_reverse (by simpa using hn), Word.length_littleBytes]
    exact Word.getElem?_littleBytes (by omega) value

end ByteOrder

/-! ## Words that were put into a memory -/

namespace Memory

/-- Bytes are written as they are loaded, but for their marks. -/
theorem writeBytes_eq (m : Memory) (addr : UInt64) (bytes : List UInt8) (mark : Mark)
    (marks : Std.TreeMap UInt64 Mark) :
    ({ m with marks } : Memory).writeBytes addr bytes = { m.load addr bytes mark with marks } := by
  -- Marks may differ from the start, since a load sets one before it goes on.
  induction bytes generalizing m addr with
  | nil => rfl
  | cons b rest ih => exact ih ((m.write addr b).setMark addr mark) (addr + 1)

theorem readBytes_marks (m : Memory) (marks : Std.TreeMap UInt64 Mark) (addr : UInt64) (n : Nat) :
    ({ m with marks } : Memory).readBytes addr n = m.readBytes addr n := by
  induction n generalizing addr with
  | zero => rfl
  | succ n ih =>
    rw [readBytes, readBytes, ih]
    rfl

/-- A memory as it is after the low `size` bytes of a word were put into the memory `m`, one byte after the other from
an address on. Addresses wrap around, and no other byte changes. -/
structure Receives (m : Memory) (addr : UInt64) (size : Nat) (value : UInt64) (m' : Memory) : Prop where
  /-- The word is read back, cut to its size. -/
  word : (m'.readWord addr size).toNat = value.toNat % 2 ^ (8 * size)
  /-- Each byte stands where the order of the memory puts it. -/
  bytes : ∀ n < size,
    m'.read (addr + n.toUInt64) = (value.toNat >>> (8 * m.order.rank size n)).toUInt8
  /-- All other bytes are as they were. -/
  others : ∀ other, (∀ n < size, (addr + n.toUInt64) &&& m.mask ≠ other &&& m.mask) →
    m'.read other = m.read other

/-- A word is received where its bytes are loaded. -/
theorem receives_load (m : Memory) (addr : UInt64) {size : Nat} (value : UInt64) (mark : Mark) (hsize : size ≤ 8)
    (hfits : size ≤ 2 ^ m.width) : m.Receives addr size value (m.load addr (m.order.encode value size) mark) := by
  -- No two bytes meet, since the memory has room for all of them, also where their addresses wrap around.
  have hread : (m.load addr (m.order.encode value size) mark).readBytes addr size = m.order.encode value size := by
    have hload := m.readBytes_load_of_le addr (m.order.encode value size) mark
    rw [ByteOrder.length_encode] at hload
    exact hload hfits (hsize.trans (by decide))
  refine ⟨?_, fun n hn => ?_, fun other hother => ?_⟩
  · rw [readWord, order_load, hread, ByteOrder.toNat_decode_encode _ _ hsize]
  · have hbyte := getElem?_readBytes (m.load addr (m.order.encode value size) mark) addr hn
    rw [hread, ByteOrder.getElem?_encode _ _ hn] at hbyte
    exact (Option.some.inj hbyte).symm
  · have hnone : byteOn? m.mask other addr (m.order.encode value size) = none := by
      rw [← Option.not_isSome_iff_eq_none, isSome_byteOn?_iff, ByteOrder.length_encode]
      rintro ⟨n, hn, heq⟩
      exact hother n hn heq
    rw [read_load, hnone, Option.getD_none]

/-- A word that is written leaves the memory that a load of its bytes leaves, but for the marks. -/
theorem writeWord_eq (m : Memory) (addr : UInt64) (size : Nat) (value : UInt64) (mark : Mark) :
    m.writeWord addr size value = { m.load addr (m.order.encode value size) mark with marks := m.marks } :=
  m.writeBytes_eq addr (m.order.encode value size) mark m.marks

theorem Receives.marks {m m' : Memory} {addr value : UInt64} {size : Nat} (h : m.Receives addr size value m')
    (marks : Std.TreeMap UInt64 Mark) : m.Receives addr size value { m' with marks } where
  word := by
    rw [readWord, readBytes_marks]
    exact h.word
  bytes := h.bytes
  others := h.others

end Memory

/-! ## Encoder, decoder and memory -/

namespace Architecture

/-- Encoder, decoder and memory agree, whichever order of bytes the architecture has or leaves open: decoding an
encoded word cuts it to its size, bytes survive decoding, and a memory made for the same order receives the same word
whether its bytes are loaded or the memory writes it. -/
theorem encode_agrees (arch : Architecture) (m : Memory)
    (horder : m.order = (Memory.empty m.width arch.byteOrder).order) (addr value : UInt64) (size : Nat) (mark : Mark)
    (hsize : size ≤ 8) (hfits : size ≤ 2 ^ m.width) :
    (arch.decode (arch.encode value size)).toNat = value.toNat % 2 ^ (8 * size) ∧
      (∀ data : List UInt8, data.length ≤ 8 → arch.encode (arch.decode data) data.length = data) ∧
      m.Receives addr size value (m.load addr (arch.encode value size) mark) ∧
      m.Receives addr size value (m.writeWord addr size value) ∧
      ∀ other, (m.load addr (arch.encode value size) mark).read other = (m.writeWord addr size value).read other := by
  have hencode : arch.encode value size = m.order.encode value size := by
    rw [horder]
    rfl
  have hload := m.receives_load addr value mark hsize hfits
  rw [hencode]
  refine ⟨?_, fun data hdata => arch.order.encode_decode data hdata, hload, ?_, fun other => ?_⟩
  · rw [← hencode]
    exact arch.order.toNat_decode_encode value hsize
  · rw [m.writeWord_eq addr size value mark]
    exact hload.marks m.marks
  · rw [m.writeWord_eq addr size value mark]
    rfl

/-- Four bytes fill a memory of two address bits from its last byte on, the lowest first where no order is given. -/
theorem encode_agrees_wrapping :
    (4 ≤ 8 ∧ 4 ≤ 2 ^ (Memory.empty 2 none).width) ∧
      (({ Mos6502.architecture with byteOrder := none }.decode
        ({ Mos6502.architecture with byteOrder := none }.encode 0x8877665544332211 4)).toNat = 0x44332211 ∧
      (((Memory.empty 2 none).writeWord 3 4 0x8877665544332211).readWord 3 4).toNat = 0x44332211 ∧
      ((Memory.empty 2 none).load 3 ({ Mos6502.architecture with byteOrder := none }.encode 0x8877665544332211 4)
        .data).read 0 = 0x22) := by
  obtain ⟨hdecode, -, hload, hwrite, -⟩ := encode_agrees { Mos6502.architecture with byteOrder := none }
    (Memory.empty 2 none) rfl 3 0x8877665544332211 4 .data (by decide) (by decide)
  refine ⟨by decide, hdecode, hwrite.word, ?_⟩
  -- The second byte of the word stands at the address behind the last one.
  exact hload.bytes 1 (by decide)

end Architecture

end EightBit
