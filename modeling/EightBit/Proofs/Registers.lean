import Mathlib
import EightBit.Mos6502.Execution
import EightBit.Proofs.Word

/-!
# The registers of the 6502

A 6502 with its own registers, and what the basic operations on registers, flags and the stack do to it.
Registers never exceed their width, and of the status register only the six flags ever change.

* `Mos6502.Registers`: the values of the registers; `Registers.file` is the register file with them.
* `Mos6502.Registers.Valid`: what holds of the values at all times.
* `Mos6502.Kept`: properties of the values that instructions cannot break; `Kept.valid` is validity.
* `Mos6502.Sound`: a running 6502 with such a property after a number of instructions.
* `Mos6502.Sound.set`, `Mos6502.Sound.setFlag`, `Mos6502.Sound.push`, `Mos6502.Sound.pull`: what keeps it.
-/

namespace EightBit

namespace Word

theorem or_and (p q r : UInt64) : (p ||| q) &&& r = (p &&& r) ||| (q &&& r) := by
  apply UInt64.toBitVec_inj.1
  ext i
  simp [Bool.and_or_distrib_right]

theorem and_or_self (p q : UInt64) : (p &&& q) ||| q = q := by
  apply UInt64.toBitVec_inj.1
  ext i
  simp

theorem and_or_and_not (p q : UInt64) : (p &&& q) ||| (p &&& ~~~q) = p := by
  apply UInt64.toBitVec_inj.1
  ext i
  simp [← Bool.and_or_distrib_left]

end Word

namespace Mos6502

/-- The values of the registers. -/
structure Registers where
  /-- The accumulator. -/
  a : UInt64
  /-- The first index register. -/
  x : UInt64
  /-- The second index register. -/
  y : UInt64
  /-- The stack pointer. -/
  sp : UInt64
  /-- The program counter. -/
  pc : UInt64
  /-- The status. -/
  p : UInt64

/-- The bits of the status that are flags of instructions. -/
def flagBits : UInt64 := 0xCF

/-- The bit of a flag in the status. -/
def Flag.bit : Flag → UInt64
  | carry => 0x01
  | zero => 0x02
  | interrupt => 0x04
  | decimal => 0x08
  | overflow => 0x40
  | negative => 0x80

/-- The status is a byte in which the unused bit is set and the break bit is not. -/
def IsStatus (p : UInt64) : Prop := p &&& ~~~flagBits = unusedBit

namespace IsStatus

variable {p : UInt64}

theorem setFlag (h : IsStatus p) (f : Flag) (on : Bool) :
    IsStatus (if on then p ||| f.bit else p &&& ~~~f.bit) := by
  have hother : f.bit &&& ~~~flagBits = 0 ∧ unusedBit &&& ~~~f.bit = unusedBit := by
    cases f <;> decide
  unfold IsStatus at h ⊢
  cases on with
  | true => rw [if_pos rfl, Word.or_and, h, hother.1, UInt64.or_zero]
  | false =>
    rw [if_neg (by simp), UInt64.and_assoc, UInt64.and_comm (~~~f.bit), ← UInt64.and_assoc, h, hother.2]

/-- A byte is a status once the break bit is cleared and the unused bit is set. -/
theorem ofByte (b : UInt8) : IsStatus (((b.toUInt64 &&& ~~~breakBit) ||| unusedBit) &&& Word.mask 8) := by
  have hbits : ~~~breakBit &&& (Word.mask 8 &&& ~~~flagBits) = unusedBit ∧
      unusedBit &&& (Word.mask 8 &&& ~~~flagBits) = unusedBit := by
    decide
  rw [IsStatus, UInt64.and_assoc, Word.or_and, UInt64.and_assoc, hbits.1, hbits.2, Word.and_or_self]

theorem le_byte (h : IsStatus p) : p ≤ 0xFF := by
  -- The high bits are among those that the status fixes.
  have hhigh : p &&& ~~~0xFF = 0 := by
    have hbits : (~~~0xFF : UInt64) = ~~~flagBits &&& ~~~0xFF := by decide
    rw [hbits, ← UInt64.and_assoc, h]
    decide
  have hlow := Word.and_or_and_not p 0xFF
  rw [hhigh, UInt64.or_zero] at hlow
  rw [← hlow]
  exact UInt64.and_le_right

theorem break_eq_zero (h : IsStatus p) : p &&& breakBit = 0 := by
  have hbit : breakBit = ~~~flagBits &&& breakBit := by decide
  rw [hbit, ← UInt64.and_assoc, h]
  decide

theorem unused_eq (h : IsStatus p) : p &&& unusedBit = unusedBit := by
  have hbit : unusedBit = ~~~flagBits &&& unusedBit := by decide
  calc p &&& unusedBit = p &&& (~~~flagBits &&& unusedBit) := by rw [← hbit]
    _ = unusedBit := by rw [← UInt64.and_assoc, h]; decide

end IsStatus

namespace Registers

/-- The register file of the 6502 with given values. -/
def file (r : Registers) : RegisterFile :=
  List.zipWith Register.mk registers [r.a, r.x, r.y, r.sp, r.pc, r.p]

/-- The values fit the registers, and the status is one. -/
structure Valid (r : Registers) : Prop where
  /-- The accumulator is a byte. -/
  a : r.a ≤ 0xFF
  /-- The first index register is a byte. -/
  x : r.x ≤ 0xFF
  /-- The second index register is a byte. -/
  y : r.y ≤ 0xFF
  /-- The stack pointer is a byte. -/
  sp : r.sp ≤ 0xFF
  /-- The program counter is an address. -/
  pc : r.pc ≤ 0xFFFF
  /-- The unused bit is set and the break bit is not. -/
  p : IsStatus r.p

/-- Registers with the definitions of the 6502 are a register file with some values. -/
theorem exists_file {rs : RegisterFile} (h : rs.map Register.definition = registers) :
    ∃ r : Registers, rs = r.file := by
  have hlen : rs.length = 6 := by simpa [registers] using congrArg List.length h
  match rs, hlen with
  | [⟨_, a⟩, ⟨_, x⟩, ⟨_, y⟩, ⟨_, sp⟩, ⟨_, pc⟩, ⟨_, p⟩], _ =>
    simp only [List.map_cons, List.map_nil, registers, List.cons.injEq, and_true] at h
    obtain ⟨rfl, rfl, rfl, rfl, rfl, rfl⟩ := h
    exact ⟨⟨a, x, y, sp, pc, p⟩, rfl⟩

theorem definitions_file (r : Registers) : r.file.map Register.definition = registers := rfl

end Registers

/-! ## Properties of registers -/

/-- The registers that may be set to anything. -/
def freeRegisters : List Text := [Reg.a, Reg.x, Reg.y, Reg.sp, Reg.pc]

/-- A property of register values that instructions cannot break: they set registers to what fits, the
status to one, and flags. -/
structure Kept where
  /-- The property. -/
  holds : Registers → Prop
  /-- A register other than the status may be set to anything. -/
  update : ∀ {r : Registers}, holds r → ∀ reg ∈ freeRegisters, ∀ v,
    ∃ r' : Registers, holds r' ∧ r.file.update reg (·.set v) = r'.file
  /-- The status may be set to what is one after it was cut to a byte. -/
  updateStatus : ∀ {r : Registers}, holds r → ∀ v, IsStatus (v &&& Word.mask 8) →
    ∃ r' : Registers, holds r' ∧ r.file.update Reg.p (·.set v) = r'.file
  /-- A flag may be set or cleared. -/
  updateFlag : ∀ {r : Registers}, holds r → ∀ (f : Flag) (on : Bool),
    ∃ r' : Registers, holds r' ∧ r.file.update Reg.p (·.setFlag f.name on) = r'.file

namespace Kept

/-- Validity cannot be broken. -/
def valid : Kept where
  holds := Registers.Valid
  update := by
    intro r h reg hreg v
    have hbyte : v &&& Word.mask 8 ≤ 0xFF := UInt64.and_le_right
    have haddr : v &&& Word.mask 16 ≤ 0xFFFF := UInt64.and_le_right
    -- A register is cut to its width whenever it is set.
    simp only [freeRegisters, List.mem_cons, List.not_mem_nil, or_false] at hreg
    rcases hreg with rfl | rfl | rfl | rfl | rfl
    · exact ⟨{ r with a := v &&& Word.mask 8 }, { h with a := hbyte }, rfl⟩
    · exact ⟨{ r with x := v &&& Word.mask 8 }, { h with x := hbyte }, rfl⟩
    · exact ⟨{ r with y := v &&& Word.mask 8 }, { h with y := hbyte }, rfl⟩
    · exact ⟨{ r with sp := v &&& Word.mask 8 }, { h with sp := hbyte }, rfl⟩
    · exact ⟨{ r with pc := v &&& Word.mask 16 }, { h with pc := haddr }, rfl⟩
  updateStatus {r} h v hv := ⟨{ r with p := v &&& Word.mask 8 }, { h with p := hv }, rfl⟩
  updateFlag := by
    intro r h f on
    refine ⟨{ r with p := if on then r.p ||| f.bit else r.p &&& ~~~f.bit },
      { h with p := h.p.setFlag f on }, ?_⟩
    cases f <;> cases on <;> rfl

end Kept

end Mos6502

namespace RegisterFile

/-- A change that keeps definitions keeps those of the whole file. -/
theorem definitions_updateWhere (p : Register → Bool) {f : Register → Register}
    (hf : ∀ r, (f r).definition = r.definition) (rs : RegisterFile) :
    (rs.updateWhere p f).map Register.definition = rs.map Register.definition := by
  induction rs with
  | nil => rfl
  | cons r rest ih =>
    rw [updateWhere]
    split_ifs
    · rw [List.map_cons, List.map_cons, hf]
    · rw [List.map_cons, List.map_cons, ih]

/-- Which register has a name depends on the definitions alone. -/
theorem definition_find? (rs : RegisterFile) (name : Text) :
    (rs.find? name).map Register.definition = (rs.map Register.definition).find? (·.isNamed name) := by
  rw [List.find?_map]
  rfl

/-- A register is found again after it was changed. -/
theorem find?_update (name : Text) {f : Register → Register} (hf : ∀ r, (f r).definition = r.definition)
    (rs : RegisterFile) : (rs.update name f).find? name = (rs.find? name).map f := by
  unfold update find?
  induction rs with
  | nil => rfl
  | cons r rest ih =>
    rw [updateWhere]
    by_cases hr : r.isNamed name
    · have hsame : (f r).isNamed name := by rwa [Register.isNamed, hf]
      rw [if_pos hr, List.find?_cons, List.find?_cons, hsame, hr, Option.map_some]
    · rw [if_neg hr, List.find?_cons, List.find?_cons, Bool.eq_false_iff.2 hr, ih]

end RegisterFile

namespace Mos6502

/-- The registers of the 6502 remain its own. -/
theorem exists_file_updateWhere (r : Registers) (p : Register → Bool) {f : Register → Register}
    (hf : ∀ r, (f r).definition = r.definition) :
    ∃ r' : Registers, True ∧ r.file.updateWhere p f = r'.file := by
  obtain ⟨r', hr'⟩ := Registers.exists_file
    ((RegisterFile.definitions_updateWhere p hf r.file).trans r.definitions_file)
  exact ⟨r', trivial, hr'⟩

theorem definition_setFlag (r : Register) (name : Text) (on : Bool) :
    (r.setFlag name on).definition = r.definition := by
  unfold Register.setFlag
  split <;> rfl

/-- What holds of all values cannot be broken. -/
def Kept.any : Kept where
  holds _ := True
  update _ _ _ _ := exists_file_updateWhere _ _ fun _ => rfl
  updateStatus _ _ _ := exists_file_updateWhere _ _ fun _ => rfl
  updateFlag _ _ _ := exists_file_updateWhere _ _ fun r => definition_setFlag r _ _

/-! ## Running processors -/

/-- A 6502 that runs with its own registers, has executed `n` instructions and has a property. -/
structure Sound (P : Kept) (n : Nat) (c : Cpu) : Prop where
  /-- It is a 6502. -/
  arch : c.arch = architecture
  /-- It was reset. -/
  ready : c.ready = true
  /-- No register was ever missing. -/
  fault : c.fault = none
  /-- The number of instructions. -/
  steps : c.steps = n
  /-- The registers are its own and have the property. -/
  registers : ∃ r : Registers, P.holds r ∧ c.registers = r.file

namespace Sound

variable {P : Kept} {n : Nat} {c : Cpu}

theorem withMemory (h : Sound P n c) (m : Memory) : Sound P n { c with memory := m } :=
  ⟨h.arch, h.ready, h.fault, h.steps, h.registers⟩

theorem withRegisters (h : Sound P n c) {rs : RegisterFile}
    (hrs : ∃ r : Registers, P.holds r ∧ rs = r.file) : Sound P n { c with registers := rs } :=
  ⟨h.arch, h.ready, h.fault, h.steps, hrs⟩

theorem set (h : Sound P n c) {reg : Text} (hreg : reg ∈ freeRegisters)
    (v : UInt64) : Sound P n (c.set reg v) := by
  obtain ⟨r, hr, hrs⟩ := h.registers
  exact h.withRegisters (hrs ▸ P.update hr reg hreg v)

theorem setStatus (h : Sound P n c) {v : UInt64} (hv : IsStatus (v &&& Word.mask 8)) :
    Sound P n (c.set Reg.p v) := by
  obtain ⟨r, hr, hrs⟩ := h.registers
  exact h.withRegisters (hrs ▸ P.updateStatus hr v hv)

theorem setFlag (h : Sound P n c) (f : Flag) (on : Bool) : Sound P n (Mos6502.setFlag c f on) := by
  obtain ⟨r, hr, hrs⟩ := h.registers
  exact h.withRegisters (hrs ▸ P.updateFlag hr f on)

theorem setZN (h : Sound P n c) (result : UInt64) : Sound P n (Mos6502.setZN c result) :=
  (h.setFlag .zero _).setFlag .negative _

theorem setZNReg (h : Sound P n c) {reg : Text} (hreg : reg ∈ freeRegisters)
    (v : UInt64) : Sound P n (Mos6502.setZNReg c reg v) :=
  (h.set hreg v).setZN _

/-! ## The stack -/

theorem register_sp (h : Sound P n c) : ∃ r, c.register stack.pointer = .ok r := by
  obtain ⟨r, -, hrs⟩ := h.registers
  have hfound : c.registers.find? Reg.sp = some ⟨{ name := "SP", aliases := ["S"], width := 8 }, r.sp⟩ := by
    rw [hrs]
    rfl
  exact ⟨_, by rw [Cpu.register, stack, hfound]⟩

theorem push (h : Sound P n c) (b : UInt8) : ∃ c', stack.push c b = .ok c' ∧ Sound P n c' := by
  obtain ⟨r, hr⟩ := h.register_sp
  refine ⟨_, by rw [Stack.push, hr]; rfl, ?_⟩
  exact (h.withMemory _).set (by simp [stack, freeRegisters]) _

theorem pull (h : Sound P n c) : ∃ b c', stack.pull c = .ok (b, c') ∧ Sound P n c' := by
  obtain ⟨r, hr⟩ := h.register_sp
  refine ⟨_, _, by rw [Stack.pull, hr]; rfl, ?_⟩
  exact h.set (by simp [stack, freeRegisters]) _

theorem pushBytes (h : Sound P n c) (bytes : List UInt8) :
    ∃ c', stack.pushBytes c bytes = .ok c' ∧ Sound P n c' := by
  induction bytes generalizing c with
  | nil => exact ⟨c, rfl, h⟩
  | cons b rest ih =>
    obtain ⟨c₁, hpush, h₁⟩ := h.push b
    obtain ⟨c₂, hrest, h₂⟩ := ih h₁
    exact ⟨c₂, by rw [Stack.pushBytes, hpush]; exact hrest, h₂⟩

theorem pullBytes (h : Sound P n c) (k : Nat) :
    ∃ bytes c', stack.pullBytes c k = .ok (bytes, c') ∧ Sound P n c' := by
  induction k generalizing c with
  | zero => exact ⟨[], c, rfl, h⟩
  | succ k ih =>
    obtain ⟨b, c₁, hpull, h₁⟩ := h.pull
    obtain ⟨rest, c₂, hrest, h₂⟩ := ih h₁
    refine ⟨b :: rest, c₂, ?_, h₂⟩
    simp only [Stack.pullBytes, hpull, hrest, bind, Except.bind, pure, Except.pure]

theorem pushWord (h : Sound P n c) (v : UInt64) (size : Nat) :
    ∃ c', stack.pushWord c v size = .ok c' ∧ Sound P n c' := h.pushBytes _

theorem pullWord (h : Sound P n c) (size : Nat) :
    ∃ v c', stack.pullWord c size = .ok (v, c') ∧ Sound P n c' := by
  obtain ⟨bytes, c', hpull, h'⟩ := h.pullBytes size
  exact ⟨Word.ofLittleBytes bytes, c', by rw [Stack.pullWord, hpull]; rfl, h'⟩

theorem pushStatus (h : Sound P n c) : ∃ c', Mos6502.pushStatus c = .ok c' ∧ Sound P n c' := h.push _

theorem pullStatus (h : Sound P n c) : ∃ c', Mos6502.pullStatus c = .ok c' ∧ Sound P n c' := by
  obtain ⟨b, c', hpull, h'⟩ := h.pull
  exact ⟨_, by rw [Mos6502.pullStatus, hpull]; rfl, h'.setStatus (IsStatus.ofByte b)⟩

end Sound

end Mos6502

end EightBit
