import Mathlib
import EightBit.Proofs.Machine

/-!
# Arithmetic on numbers of several bytes

Addition and subtraction of the 6502 work on a byte and a carry. Numbers of any length are added and subtracted
byte by byte, the lowest first: a load in between changes other flags but leaves the carry alone. In the end the
flags are those of the whole number, in either mode of the decimal flag.

* `Mos6502.Registers.add`: addition of a byte, with its flags in terms of numbers.
* `Mos6502.byte`, `Mos6502.signed`: the bytes of a number, and the signed number that they stand for.
* `Mos6502.combine`: an instruction on the bytes of two numbers, one after the other.
* `Mos6502.Outcome`: what such a series leaves behind.
* `Mos6502.combine_adc_machine`: addition, by induction on the number of bytes.
* `Mos6502.multiByte_arithmetic`: addition and subtraction.
-/

namespace EightBit

namespace Word

/-- The sign of a byte is its highest bit. -/
theorem and_sign_bne_zero (x : UInt64) : (x &&& 0x80 != 0) = x.toNat.testBit 7 := by
  have hbit : (x &&& 0x80).toNat = (x.toNat.testBit 7).toNat * 2 ^ 7 := by
    rw [UInt64.toNat_and]
    exact Nat.and_two_pow x.toNat 7
  rw [Bool.eq_iff_iff, bne_iff_ne, ne_eq, ← UInt64.toNat_inj, hbit]
  cases x.toNat.testBit 7 <;> simp

theorem testBit_not (x : UInt64) : (~~~x).toNat.testBit 7 = !x.toNat.testBit 7 := by
  rw [← UInt64.toNat_toBitVec, ← UInt64.toNat_toBitVec, BitVec.testBit_toNat, BitVec.testBit_toNat,
    UInt64.toBitVec_not, BitVec.getLsbD_not]
  rfl

end Word

namespace Mos6502

/-! ## Numbers and their bytes -/

/-- The byte of a number at a place, that at zero being the lowest. -/
def byte (v i : Nat) : UInt8 := UInt8.ofNat (v / 256 ^ i)

/-- The signed number that the low `n` bytes of a number stand for. -/
def signed (n v : Nat) : Int := Int.bmod v (256 ^ n)

theorem byte_succ (v i : Nat) : byte v (i + 1) = byte (v / 256) i := by
  rw [byte, byte, Nat.div_div_eq_div_mul, Nat.pow_succ, Nat.mul_comm]

theorem toNat_byte_zero (v : Nat) : (byte v 0).toNat = v % 256 := by simp [byte]

/-- The lowest byte does not depend on higher ones. -/
theorem byte_zero_mod (v n : Nat) : byte (v % 256 ^ (n + 1)) 0 = byte v 0 := by
  apply UInt8.toNat_inj.1
  rw [toNat_byte_zero, toNat_byte_zero, Nat.pow_succ', Nat.mod_mul_right_mod]

/-- The bytes of two numbers, the lowest first. -/
def bytePairs (n x y : Nat) : List (UInt8 × UInt8) := (List.range n).map fun i => (byte x i, byte y i)

theorem bytePairs_succ (n x y : Nat) :
    bytePairs (n + 1) x y = (byte x 0, byte y 0) :: bytePairs n (x / 256) (y / 256) := by
  simp [bytePairs, List.range_succ_eq_map, byte_succ]

/-- The bytes of a number, the lowest first, as an accumulator has them. -/
def byteValues (n v : Nat) : List UInt64 := (List.range n).map fun i => (byte v i).toUInt64

theorem byteValues_succ (n v : Nat) :
    byteValues (n + 1) v = (byte v 0).toUInt64 :: byteValues n (v / 256) := by
  simp [byteValues, List.range_succ_eq_map, byte_succ]

/-- A number stands for itself in the lower half, and for a negative number in the upper half. -/
theorem signed_eq {n v : Nat} (h : v < 256 ^ (n + 1)) :
    signed (n + 1) v = if v < 128 * 256 ^ n then (v : Int) else v - (256 * 256 ^ n : Nat) := by
  have hpow : 256 ^ (n + 1) = 256 * 256 ^ n := Nat.pow_succ'
  have hmod : (v : Int) % ((256 ^ (n + 1) : Nat) : Int) = v := Int.emod_eq_of_lt (by omega) (by exact_mod_cast h)
  rw [signed, Int.bmod, hmod, hpow]
  generalize 256 ^ n = p
  split_ifs <;> omega

/-- The lowest byte has no sign. -/
theorem signed_succ {n v : Nat} (h : v < 256 ^ (n + 2)) :
    signed (n + 2) v = 256 * signed (n + 1) (v / 256) + (v % 256 : Nat) := by
  have hpow : 256 ^ (n + 2) = 256 * 256 ^ (n + 1) := Nat.pow_succ'
  have hpow' : 256 ^ (n + 1) = 256 * 256 ^ n := Nat.pow_succ'
  rw [signed_eq h, signed_eq (by omega), hpow']
  generalize 256 ^ n = p
  split_ifs <;> omega

/-- The bytes of the number with all bits inverted are inverted. -/
theorem bytePairs_complement {n y : Nat} (x : Nat) (hy : y < 256 ^ n) :
    (bytePairs n x y).map (Prod.map id (~~~·)) = bytePairs n x (256 ^ n - 1 - y) := by
  induction n generalizing x y with
  | zero => rfl
  | succ n ih =>
    have hpow : 256 ^ (n + 1) = 256 * 256 ^ n := Nat.pow_succ'
    have hlow : ~~~byte y 0 = byte (256 ^ (n + 1) - 1 - y) 0 := by
      apply UInt8.toNat_inj.1
      rw [UInt8.toNat_not, toNat_byte_zero, toNat_byte_zero, hpow]
      have hsize : UInt8.size = 256 := rfl
      generalize 256 ^ n = p at *
      omega
    have hhigh : (256 ^ (n + 1) - 1 - y) / 256 = 256 ^ n - 1 - y / 256 := by
      rw [hpow] at hy ⊢
      generalize 256 ^ n = p at *
      omega
    rw [bytePairs_succ, bytePairs_succ, List.map_cons, ih _ (by omega), Prod.map_apply, id, hlow, hhigh]

/-- The number with all bits inverted stands for the negated number minus one. -/
theorem signed_complement {n v : Nat} (h : v < 256 ^ (n + 1)) :
    signed (n + 1) (256 ^ (n + 1) - 1 - v) = -signed (n + 1) v - 1 := by
  have hpow : 256 ^ (n + 1) = 256 * 256 ^ n := Nat.pow_succ'
  rw [signed_eq h, signed_eq (by omega)]
  rw [hpow] at h ⊢
  generalize 256 ^ n = p at *
  split_ifs <;> omega

/-! ## Addition of bytes -/

namespace Registers

/-- The registers after a byte was loaded into the accumulator. -/
def load (r : Registers) (b : UInt8) : Registers := { r with a := b.toUInt64 }.setZN b.toUInt64

/-- The sum of the accumulator, a value and the carry. -/
def sum (r : Registers) (v : UInt64) : UInt64 := r.a + v + if r.flag .carry then 1 else 0

/-- The registers after a value and the carry were added to the accumulator. -/
def add (r : Registers) (v : UInt64) : Registers :=
  let flags := (r.setFlag .carry (0xFF < r.sum v)).setFlag .overflow
    (~~~(r.a ^^^ v) &&& (r.a ^^^ r.sum v) &&& 0x80 != 0)
  { flags with a := r.sum v &&& 0xFF }.setZN (r.sum v &&& 0xFF)

/-- The registers after the sum of two bytes and the carry was put into the accumulator. -/
def addBytes (r : Registers) (x y : UInt8) : Registers := (r.load x).add y.toUInt64

@[simp] theorem flag_with_a (r : Registers) (v : UInt64) (f : Flag) : { r with a := v }.flag f = r.flag f := rfl

variable (r : Registers) (x y : UInt8)

/-- A load leaves the carry alone. -/
theorem flag_carry_load : (r.load x).flag .carry = r.flag .carry := by simp [load, setZN, flag_setFlag]

theorem toNat_sum_load :
    ((r.load x).sum y.toUInt64).toNat = x.toNat + y.toNat + (r.flag .carry).toNat := by
  have ha : (r.load x).a = x.toUInt64 := rfl
  have hx := x.toNat_lt
  have hy := y.toNat_lt
  rw [sum, ha, flag_carry_load]
  cases r.flag .carry <;> simp <;> omega

theorem a_addBytes :
    (r.addBytes x y).a = (UInt8.ofNat (x.toNat + y.toNat + (r.flag .carry).toNat)).toUInt64 := by
  have ha : (r.addBytes x y).a = (r.load x).sum y.toUInt64 &&& 0xFF := rfl
  apply UInt64.toNat_inj.1
  rw [ha, ← Word.mask_eight, Word.toNat_and_mask _ (by decide), toNat_sum_load]
  simp

theorem flag_carry_addBytes :
    (r.addBytes x y).flag .carry ↔ 256 ≤ x.toNat + y.toNat + (r.flag .carry).toNat := by
  have hflag : (r.addBytes x y).flag .carry = decide (0xFF < (r.load x).sum y.toUInt64) := by
    simp [addBytes, add, setZN, flag_setFlag]
  rw [hflag, decide_eq_true_iff, UInt64.lt_iff_toNat_lt, toNat_sum_load]
  exact Nat.succ_le_iff.symm

theorem toNat_flag_carry_addBytes :
    ((r.addBytes x y).flag .carry).toNat = (x.toNat + y.toNat + (r.flag .carry).toNat) / 256 := by
  have hx := x.toNat_lt
  have hy := y.toNat_lt
  have hcarry := Bool.toNat_le (r.flag .carry)
  have hiff := r.flag_carry_addBytes x y
  cases hflag : (r.addBytes x y).flag .carry <;> simp [hflag] at hiff ⊢ <;> omega

theorem flag_negative_addBytes :
    (r.addBytes x y).flag .negative ↔ 128 ≤ (x.toNat + y.toNat + (r.flag .carry).toNat) % 256 := by
  have hflag : (r.addBytes x y).flag .negative = ((r.addBytes x y).a &&& 0x80 != 0) := by
    rw [addBytes, add, setZN, flag_setFlag, if_pos rfl]
    rfl
  rw [hflag, a_addBytes, Word.and_sign_bne_zero, Nat.testBit_eq_decide_div_mod_eq, decide_eq_true_iff,
    UInt8.toNat_toUInt64, UInt8.toNat_ofNat']
  omega

/-- The sum overflows if the summands have the same sign and the sum has the other one. -/
theorem flag_overflow_addBytes {s : Int}
    (hs : s = signed 1 x.toNat + signed 1 y.toNat + (r.flag .carry).toNat) :
    (r.addBytes x y).flag .overflow ↔ s < -128 ∨ 128 ≤ s := by
  have hflag : (r.addBytes x y).flag .overflow =
      (~~~(x.toUInt64 ^^^ y.toUInt64) &&& (x.toUInt64 ^^^ (r.load x).sum y.toUInt64) &&& 0x80 != 0) := by
    rw [addBytes, add, setZN, flag_setFlag, if_neg (by decide), flag_setFlag, if_neg (by decide), flag_with_a,
      flag_setFlag, if_pos rfl]
    rfl
  have hx := x.toNat_lt
  have hy := y.toNat_lt
  have hcarry := Bool.toNat_le (r.flag .carry)
  rw [signed_eq (n := 0) (by omega), signed_eq (n := 0) (by omega)] at hs
  rw [hflag, Word.and_sign_bne_zero, UInt64.toNat_and, Nat.testBit_and, Word.testBit_not, UInt64.toNat_xor,
    UInt64.toNat_xor, Nat.testBit_xor, Nat.testBit_xor, toNat_sum_load]
  simp only [Nat.testBit_eq_decide_div_mod_eq, UInt8.toNat_toUInt64]
  generalize (r.flag .carry).toNat = k at *
  generalize x.toNat = a at *
  generalize y.toNat = b at *
  simp only [Bool.and_eq_true, Bool.not_eq_true', bne_eq_false_iff_eq, bne_iff_ne, decide_eq_decide, ne_eq]
  split_ifs at hs <;> omega

end Registers

/-! ## Numbers of several bytes -/

/-- The processor after an instruction with an immediate operand at an address. -/
def immediate (op : Operation) (operand : UInt8) (pc : UInt64) (c : Cpu) : Except CpuError Cpu :=
  let entry : Entry := ⟨op.name, Addressing.imm.mode, (op.opcodes.lookup .imm).getD 0⟩
  let effect := behaviour.execute c entry (behaviour.resolve c entry.mode operand.toUInt64 pc) pc
  effect.next.map fun _ => effect.cpu

/-- The accumulator after each byte, and the processor in the end, if from an address on each byte of a number is
loaded and an instruction is performed with the byte of another number. -/
def combine (op : Operation) (c : Cpu) (pc : UInt64) :
    List (UInt8 × UInt8) → Except CpuError (List UInt64 × Cpu)
  | [] => .ok ([], c)
  | (x, y) :: rest => do
    let c ← immediate .lda x pc c
    let c ← immediate op y (pc + 2) c
    let (results, d) ← combine op c (pc + 4) rest
    return (c.get Reg.a :: results, d)

/-- What arithmetic on `n` bytes leaves behind: the bytes of the result `value`, whether there was a carry, whether
the `exact` signed result is not one of `n` bytes, and the sign of the result. -/
structure Outcome (n value : Nat) (exact : Int) (carry : Prop) (results : List UInt64) (c : Cpu) : Prop where
  /-- The bytes are those of the result. -/
  results_eq : results = byteValues n value
  /-- The carry is that of the whole number. -/
  carry_iff : flag c .carry ↔ carry
  /-- The result is out of range as a signed number. -/
  overflow_iff : flag c .overflow ↔ exact < -(256 ^ n / 2 : Nat) ∨ (256 ^ n / 2 : Nat) ≤ exact
  /-- The sign is that of the whole number. -/
  negative_iff : flag c .negative ↔ 256 ^ n / 2 ≤ value

section

variable {r : Registers} {m : Memory} {s : Nat}

theorem immediate_machine (op : Operation) (b : UInt8) (pc : UInt64) {r' : Registers}
    (hrun : ∀ i : Instruction, i.operand.value = some b.toUInt64 →
      op.run (machine r m s) i = proceed (machine r' m s)) :
    immediate op b pc (machine r m s) = .ok (machine r' m s) := by
  have hvalue : b.toUInt64 &&& 0xFF = b.toUInt64 :=
    Word.and_byte_of_le (UInt64.le_iff_toNat_le.2 (Nat.le_of_lt_succ b.toNat_lt))
  have hresolve : (behaviour.resolve (machine r m s) Addressing.imm.mode b.toUInt64 pc).value =
      some b.toUInt64 := by
    show (resolve _ _ _ _).value = _
    rw [resolve, Addressing.ofMode?_mode]
    exact congrArg some hvalue
  have heffect : behaviour.execute (machine r m s)
      ⟨op.name, Addressing.imm.mode, (op.opcodes.lookup .imm).getD 0⟩
      (behaviour.resolve (machine r m s) Addressing.imm.mode b.toUInt64 pc) pc = proceed (machine r' m s) :=
    (execute_machine _ _ _ _ _).trans (hrun _ hresolve)
  simp only [immediate, heffect]
  rfl

theorem immediate_lda_machine (b : UInt8) (pc : UInt64) :
    immediate .lda b pc (machine r m s) = .ok (machine (r.load b) m s) := by
  have hvalue : b.toUInt64 &&& 0xFF = b.toUInt64 :=
    Word.and_byte_of_le (UInt64.le_iff_toNat_le.2 (Nat.le_of_lt_succ b.toNat_lt))
  refine immediate_machine .lda b pc fun i hi => ?_
  simp only [Operation.run, Instruction.load, Instruction.withValue, hi, setZNReg, set_a_machine, get_a_machine,
    setZN_machine, hvalue, Registers.load]

theorem addTo_machine (v : UInt64) : Instruction.addTo (machine r m s) v = machine (r.add v) m s := by
  simp only [Instruction.addTo, get_a_machine, flag_machine, setFlag_machine, setZNReg, set_a_machine,
    setZN_machine, Registers.add, Registers.sum]
  rfl

theorem immediate_adc_machine (b : UInt8) (pc : UInt64) :
    immediate .adc b pc (machine r m s) = .ok (machine (r.add b.toUInt64) m s) := by
  refine immediate_machine .adc b pc fun i hi => ?_
  simp only [Operation.run, Instruction.withValue, hi, addTo_machine]

/-- To subtract a byte is to add the byte with all bits inverted. -/
theorem immediate_sbc_machine (b : UInt8) (pc : UInt64) :
    immediate .sbc b pc (machine r m s) = .ok (machine (r.add (~~~b).toUInt64) m s) := by
  have hinverted : b.toUInt64 ^^^ 0xFF = (~~~b).toUInt64 := by
    show b.toUInt64 ^^^ (-1 : UInt8).toUInt64 = _
    rw [← UInt8.toUInt64_xor, UInt8.xor_neg_one]
  refine immediate_machine .sbc b pc fun i hi => ?_
  simp only [Operation.run, Instruction.withValue, hi, hinverted, addTo_machine]

theorem combine_adc_cons (x y : UInt8) (pc : UInt64) (rest : List (UInt8 × UInt8)) {results : List UInt64} {c : Cpu}
    (hrest : combine .adc (machine (r.addBytes x y) m s) (pc + 4) rest = .ok (results, c)) :
    combine .adc (machine r m s) pc ((x, y) :: rest) = .ok ((r.addBytes x y).a :: results, c) := by
  rw [Registers.addBytes] at hrest
  simp only [combine, immediate_lda_machine, immediate_adc_machine, bind, Except.bind, hrest, pure, Except.pure]
  rfl

theorem combine_sbc (pc : UInt64) (pairs : List (UInt8 × UInt8)) :
    combine .sbc (machine r m s) pc pairs = combine .adc (machine r m s) pc (pairs.map (Prod.map id (~~~·))) := by
  induction pairs generalizing r pc with
  | nil => rfl
  | cons pair rest ih =>
    simp only [combine, List.map_cons, Prod.map, id, immediate_lda_machine, immediate_adc_machine,
      immediate_sbc_machine, bind, Except.bind, ih]

/-- Addition of numbers of several bytes, by induction on their number: the carry of the lowest byte is what the
other bytes start with. -/
theorem combine_adc_machine (n : Nat) (pc : UInt64) {x y : Nat} (hx : x < 256 ^ (n + 1)) (hy : y < 256 ^ (n + 1)) :
    ∃ results c, combine .adc (machine r m s) pc (bytePairs (n + 1) x y) = .ok (results, c) ∧
      Outcome (n + 1) ((x + y + (r.flag .carry).toNat) % 256 ^ (n + 1))
        (signed (n + 1) x + signed (n + 1) y + (r.flag .carry).toNat)
        (256 ^ (n + 1) ≤ x + y + (r.flag .carry).toNat) results c := by
  induction n generalizing r pc x y with
  | zero =>
    have hlow : (byte x 0).toNat = x ∧ (byte y 0).toNat = y := by
      rw [toNat_byte_zero, toNat_byte_zero]
      omega
    rw [bytePairs_succ]
    refine ⟨_, _, combine_adc_cons _ _ _ _ rfl, ?_, ?_, ?_, ?_⟩
    · rw [Registers.a_addBytes, hlow.1, hlow.2, byteValues_succ, byte_zero_mod, byte, Nat.pow_zero, Nat.div_one]
      rfl
    · rw [flag_machine, Registers.flag_carry_addBytes, hlow.1, hlow.2]
      rfl
    · rw [flag_machine]
      exact Registers.flag_overflow_addBytes _ _ _ (by rw [hlow.1, hlow.2])
    · rw [flag_machine, Registers.flag_negative_addBytes, hlow.1, hlow.2]
      rfl
  | succ n ih =>
    have hpow : 256 ^ (n + 2) = 256 * 256 ^ (n + 1) := Nat.pow_succ'
    have hlow : (byte x 0).toNat = x % 256 ∧ (byte y 0).toNat = y % 256 := ⟨toNat_byte_zero x, toNat_byte_zero y⟩
    obtain ⟨results, c, hrest, h⟩ := ih (r := r.addBytes (byte x 0) (byte y 0)) (pc + 4) (x := x / 256)
      (y := y / 256) (by omega) (by omega)
    have hcarry := r.toNat_flag_carry_addBytes (byte x 0) (byte y 0)
    have ha := r.a_addBytes (byte x 0) (byte y 0)
    rw [hlow.1, hlow.2] at hcarry ha
    rw [hcarry] at h
    generalize (r.flag .carry).toNat = k at *
    have hsum : x / 256 + y / 256 + (x % 256 + y % 256 + k) / 256 = (x + y + k) / 256 := by omega
    rw [hsum] at h
    -- Without its lowest byte, the sum is the sum of the other bytes and the carry into them.
    have hhigh : (x + y + k) / 256 % 256 ^ (n + 1) = (x + y + k) % 256 ^ (n + 2) / 256 := by
      rw [hpow, Nat.mod_mul_right_div_self]
    rw [hhigh] at h
    rw [bytePairs_succ]
    refine ⟨_, c, combine_adc_cons _ _ _ _ hrest, ?_, h.carry_iff.trans ?_, h.overflow_iff.trans ?_,
      h.negative_iff.trans ?_⟩
    · have hbyte : UInt8.ofNat (x % 256 + y % 256 + k) = byte (x + y + k) 0 := by
        apply UInt8.toNat_inj.1
        rw [toNat_byte_zero, UInt8.toNat_ofNat']
        omega
      rw [byteValues_succ, byte_zero_mod, h.results_eq, ha, hbyte]
    · omega
    · -- The bound is a multiple of 256, so that the lowest bytes do not matter.
      rw [signed_succ hx, signed_succ hy, hpow, Nat.pow_succ' (n := n)]
      generalize signed (n + 1) (x / 256) = a
      generalize signed (n + 1) (y / 256) = b
      generalize 256 ^ n = p
      omega
    · rw [hpow, Nat.pow_succ' (n := n)]
      generalize (x + y + k) % (256 * (256 * 256 ^ n)) = v
      generalize 256 ^ n = p
      omega

/-- Subtraction of numbers of several bytes is addition of the number with all bits inverted. -/
theorem combine_sbc_machine (n : Nat) (pc : UInt64) {x y : Nat} (hx : x < 256 ^ (n + 1)) (hy : y < 256 ^ (n + 1)) :
    ∃ results c, combine .sbc (machine r m s) pc (bytePairs (n + 1) x y) = .ok (results, c) ∧
      Outcome (n + 1) (((x : Int) - y - (1 - (r.flag .carry).toNat)) % (256 ^ (n + 1) : Nat)).toNat
        (signed (n + 1) x - signed (n + 1) y - (1 - (r.flag .carry).toNat))
        (0 ≤ (x : Int) - y - (1 - (r.flag .carry).toNat)) results c := by
  have hinverted : 256 ^ (n + 1) - 1 - y < 256 ^ (n + 1) := by omega
  -- Adding the inverted number is subtracting, plus the power that leaves through the carry, less one.
  obtain ⟨results, c, hsum, h⟩ := combine_adc_machine (r := r) (m := m) (s := s) n pc hx hinverted
  rw [← bytePairs_complement x hy, ← combine_sbc] at hsum
  rw [signed_complement hy] at h
  generalize (r.flag .carry).toNat = k at *
  have hvalue : (x + (256 ^ (n + 1) - 1 - y) + k) % 256 ^ (n + 1) =
      (((x : Int) - y - (1 - k)) % (256 ^ (n + 1) : Nat)).toNat := by
    have hexact : ((x + (256 ^ (n + 1) - 1 - y) + k : Nat) : Int) =
        (x : Int) - y - (1 - k) + (256 ^ (n + 1) : Nat) := by
      omega
    rw [← Int.add_emod_right, ← hexact, ← Int.natCast_mod, Int.toNat_natCast]
  have hexact : signed (n + 1) x + (-signed (n + 1) y - 1) + k = signed (n + 1) x - signed (n + 1) y - (1 - k) := by
    ring
  rw [hvalue, hexact] at h
  refine ⟨results, c, hsum, h.results_eq, h.carry_iff.trans ?_, h.overflow_iff, h.negative_iff⟩
  omega

end

/-- Numbers of any number of bytes are added and subtracted byte by byte, from every state and whatever the decimal
flag: the accumulator holds the bytes of the sum or difference, the carry tells the carry out of the sum or that the
difference has no borrow, and the flags for overflow and sign are those of the whole number. -/
theorem multiByte_arithmetic {c : Cpu} (hc : Reachable c) (pc : UInt64) {n x y : Nat} (hn : 1 ≤ n)
    (hx : x < 256 ^ n) (hy : y < 256 ^ n) {k : Nat} (hk : k = (flag c .carry).toNat) :
    (∃ results c', combine .adc c pc (bytePairs n x y) = .ok (results, c') ∧
      Outcome n ((x + y + k) % 256 ^ n) (signed n x + signed n y + k) (256 ^ n ≤ x + y + k) results c') ∧
    ∃ results c', combine .sbc c pc (bytePairs n x y) = .ok (results, c') ∧
      Outcome n (((x : Int) - y - (1 - k)) % (256 ^ n : Nat)).toNat (signed n x - signed n y - (1 - k))
        (0 ≤ (x : Int) - y - (1 - k)) results c' := by
  obtain ⟨r, s, -, heq⟩ := hc.exists_machine
  rw [heq, flag_machine] at hk
  subst hk
  obtain ⟨n, rfl⟩ : ∃ j, n = j + 1 := ⟨n - 1, by omega⟩
  rw [heq]
  exact ⟨combine_adc_machine n pc hx hy, combine_sbc_machine n pc hx hy⟩

/-- A memory with the instruction that chooses decimal mode. -/
def decimalMemory : Memory := (Memory.empty 16 none).load 0x0200 [0xF8] .program

/-- A processor after this instruction. -/
def decimalMode : Cpu :=
  machine { (Registers.initial 0x0200).setFlag .decimal true with pc := (0x0200 + 1) &&& 0xFFFF } decimalMemory 1

theorem reachable_decimalMode : Reachable decimalMode := by
  have hmem : (Addressing.imp, decimalMemory.read 0x0200) ∈ Operation.sed.opcodes := by
    rw [show decimalMemory.read 0x0200 = 0xF8 by decide +kernel]
    decide
  refine reachable_of_run (by decide) (by decide) hmem (r := (Registers.initial 0x0200).setFlag .decimal true) ?_
  rw [Operation.run, setFlag_machine]

theorem multiByte_arithmetic_decimalMode :
    Reachable decimalMode ∧ flag decimalMode .decimal = true ∧ flag decimalMode .carry = false ∧
    (∃ results c', combine .adc decimalMode 0x0300 (bytePairs 2 0x7FFF 0x0001) = .ok (results, c') ∧
      results = [0x00, 0x80] ∧ flag c' .carry = false ∧ flag c' .overflow = true ∧ flag c' .negative = true) ∧
    ∃ results c', combine .sbc decimalMode 0x0300 (bytePairs 2 0x7FFF 0x0001) = .ok (results, c') ∧
      results = [0xFD, 0x7F] ∧ flag c' .carry = true ∧ flag c' .overflow = false ∧ flag c' .negative = false := by
  have hflags : flag decimalMode .decimal = true ∧ flag decimalMode .carry = false := by decide +kernel
  have hcarry : 0 = (flag decimalMode .carry).toNat := by rw [hflags.2]; rfl
  obtain ⟨⟨sum, c, hadd, hsum⟩, difference, d, hsub, hdifference⟩ :=
    multiByte_arithmetic reachable_decimalMode 0x0300 (n := 2) (x := 0x7FFF) (y := 0x0001) (by decide) (by decide)
      (by decide) hcarry
  refine ⟨reachable_decimalMode, hflags.1, hflags.2, ⟨sum, c, hadd, ?_, ?_, ?_, ?_⟩, difference, d, hsub, ?_, ?_, ?_,
    ?_⟩
  · exact hsum.results_eq.trans (by decide +kernel)
  · exact Bool.eq_false_iff.2 fun h => absurd (hsum.carry_iff.1 h) (by decide)
  · exact hsum.overflow_iff.2 (by decide +kernel)
  · exact hsum.negative_iff.2 (by decide +kernel)
  · exact hdifference.results_eq.trans (by decide +kernel)
  · exact hdifference.carry_iff.2 (by decide)
  · exact Bool.eq_false_iff.2 fun h => absurd (hdifference.overflow_iff.1 h) (by decide +kernel)
  · exact Bool.eq_false_iff.2 fun h => absurd (hdifference.negative_iff.1 h) (by decide +kernel)

end Mos6502

end EightBit
