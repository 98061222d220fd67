import Mathlib
import EightBit.Proofs.Consistency
import EightBit.Proofs.Loading

/-!
# States of the 6502

A 6502 that runs is told by the values of its registers, its memory and the number of its instructions. On
such a state every basic operation is an equation between states, and so is a step as soon as the effect of
its instruction is one.

* `Registers.flag`, `Registers.setFlag`: flags as bits of the status.
* `Mos6502.stackSlot`: the addresses of the stack, in the order of pushing.
* `Mos6502.machine`: the state with given values; `Sound.exists_machine` says that every one is of this form.
* `Mos6502.push_machine`, `Mos6502.pull_machine`: the stack.
* `Mos6502.Fetches`: the next instruction; `Mos6502.step_machine`: a step by the effect of its instruction.
* `Mos6502.Reachable`: the states that a 6502 reaches after a reset.
-/

namespace EightBit

namespace Word

theorem mask_eight : mask 8 = 0xFF := by decide

theorem mask_sixteen : mask 16 = 0xFFFF := by decide

theorem toUInt64_toUInt8 (x : UInt64) : x.toUInt8.toUInt64 = x &&& 0xFF := by
  apply UInt64.toNat_inj.1
  rw [← mask_eight, toNat_and_mask _ (by decide)]
  simp

theorem and_byte_of_le {x : UInt64} (h : x ≤ 0xFF) : x &&& 0xFF = x := by
  rw [← mask_eight]
  exact and_mask_of_lt (by decide) (Nat.lt_succ_of_le (UInt64.le_iff_toNat_le.1 h))

theorem and_address_of_le {x : UInt64} (h : x ≤ 0xFFFF) : x &&& 0xFFFF = x := by
  rw [← mask_sixteen]
  exact and_mask_of_lt (by decide) (Nat.lt_succ_of_le (UInt64.le_iff_toNat_le.1 h))

/-- A sum cut to a byte does not change if a summand is cut before. -/
theorem and_byte_add (x y : UInt64) : ((x &&& 0xFF) + y) &&& 0xFF = (x + y) &&& 0xFF := by
  rw [← mask_eight, and_mask_add_and_mask _ _ (by decide)]

/-- A sum cut to an address does not change if a summand is cut before. -/
theorem and_address_add (x y : UInt64) : ((x &&& 0xFFFF) + y) &&& 0xFFFF = (x + y) &&& 0xFFFF := by
  rw [← mask_sixteen, and_mask_add_and_mask _ _ (by decide)]

/-- A difference cut to a byte does not change if what is subtracted from is cut before. -/
theorem and_byte_sub (x y : UInt64) : ((x &&& 0xFF) - y) &&& 0xFF = (x - y) &&& 0xFF := by
  rw [UInt64.sub_eq_add_neg, UInt64.sub_eq_add_neg, and_byte_add]

end Word

/-- A processor that was reset and lacks nothing performs the instruction that it finds. -/
theorem Cpu.step_of_decode? {b : Behaviour} {c : Cpu} {e : Entry} (hfault : c.fault = none)
    (hready : c.ready = true) (hmissing : c.missing? b = none)
    (hdecode : c.arch.table.decode? (c.memory.read c.pc) = some e) : c.step b = c.perform b e := by
  simp [step, hfault, hready, hmissing, hdecode]

namespace Mos6502

/-! ## Flags -/

namespace Registers

/-- Whether a flag is set. -/
def flag (r : Registers) (f : Flag) : Bool := r.p &&& f.bit != 0

/-- The registers with a flag set or cleared. -/
def setFlag (r : Registers) (f : Flag) (on : Bool) : Registers :=
  { r with p := if on then r.p ||| f.bit else r.p &&& ~~~f.bit }

/-- The registers with the flags for zero and sign set by the low byte of a result. -/
def setZN (r : Registers) (result : UInt64) : Registers :=
  (r.setFlag .zero (result &&& 0xFF == 0)).setFlag .negative (result &&& 0x80 != 0)

/-- A flag is as it was set last, and setting one leaves the others alone. -/
theorem flag_setFlag (r : Registers) (f g : Flag) (on : Bool) :
    (r.setFlag f on).flag g = if f = g then on else r.flag g := by
  unfold flag setFlag
  by_cases hfg : f = g
  · subst hfg
    have hbit : f.bit ≠ 0 := by cases f <;> decide
    rw [if_pos rfl]
    cases on with
    | true => simp [Word.or_and, Word.and_or_self, hbit]
    | false => simp [UInt64.and_assoc]
  · have hother : f.bit &&& g.bit = 0 ∧ ~~~f.bit &&& g.bit = g.bit := by
      revert hfg
      cases f <;> cases g <;> decide
    rw [if_neg hfg]
    cases on with
    | true => simp [Word.or_and, hother.1]
    | false => simp [UInt64.and_assoc, hother.2]

end Registers

/-! ## The stack page -/

/-- The address of the byte that is pushed after `k` others, where the stack pointer has a given value. -/
def stackSlot (sp k : UInt64) : UInt64 := stackBase + ((sp - k) &&& 0xFF)

/-- The first byte is pushed to where the stack pointer points. -/
theorem stackSlot_zero {sp : UInt64} (hsp : sp ≤ 0xFF) : stackSlot sp 0 = stackBase + sp := by
  rw [stackSlot, UInt64.sub_zero, Word.and_byte_of_le hsp]

theorem toNat_stackSlot (sp k : UInt64) : (stackSlot sp k).toNat = 0x100 + (sp - k).toNat % 2 ^ 8 := by
  have hbyte : ((sp - k) &&& 0xFF).toNat = (sp - k).toNat % 2 ^ 8 := by
    rw [← Word.mask_eight, Word.toNat_and_mask _ (by decide)]
  have hlt := Nat.mod_lt (sp - k).toNat (show 2 ^ 8 > 0 by decide)
  have hbase : stackBase.toNat = 0x100 := rfl
  rw [stackSlot, UInt64.toNat_add, hbyte, hbase, Nat.mod_eq_of_lt (by omega)]

theorem stackSlot_le (sp k : UInt64) : stackSlot sp k ≤ 0x1FF := by
  have hlt := Nat.mod_lt (sp - k).toNat (show 2 ^ 8 > 0 by decide)
  have hlast : (0x1FF : UInt64).toNat = 0x1FF := rfl
  rw [UInt64.le_iff_toNat_le, toNat_stackSlot, hlast]
  omega

theorem le_stackSlot (sp k : UInt64) : 0x100 ≤ stackSlot sp k := by
  have hfirst : (0x100 : UInt64).toNat = 0x100 := rfl
  rw [UInt64.le_iff_toNat_le, toNat_stackSlot, hfirst]
  omega

/-- Up to 256 bytes that are pushed one after the other are put to different addresses. -/
theorem stackSlot_injective (sp : UInt64) {j k : UInt64} (hj : j ≤ 0xFF) (hk : k ≤ 0xFF)
    (h : stackSlot sp j = stackSlot sp k) : j = k := by
  have hnat := congrArg UInt64.toNat h
  rw [toNat_stackSlot, toNat_stackSlot, UInt64.toNat_sub, UInt64.toNat_sub] at hnat
  have hlast : (0xFF : UInt64).toNat = 0xFF := rfl
  rw [UInt64.le_iff_toNat_le, hlast] at hj hk
  have hsp := sp.toNat_lt
  apply UInt64.toNat_inj.1
  omega

/-- A memory that has a page one keeps the addresses of the stack apart. -/
theorem stackSlot_and_mask {m : Memory} (hwidth : 9 ≤ m.width) (sp k : UInt64) :
    stackSlot sp k &&& m.mask = stackSlot sp k := by
  by_cases hword : m.width < 64
  · have hle := UInt64.le_iff_toNat_le.1 (stackSlot_le sp k)
    have hlast : (0x1FF : UInt64).toNat < 2 ^ 9 := by decide
    have hpow : 2 ^ 9 ≤ 2 ^ m.width := Nat.pow_le_pow_right (by decide) hwidth
    exact Word.and_mask_of_lt hword (by omega)
  · rw [Memory.mask, Word.mask, if_neg hword]
    exact UInt64.and_neg_one

/-- A byte that is pushed is read back, and those pushed before are still there. -/
theorem read_write_stackSlot {m : Memory} (hwidth : 9 ≤ m.width) (sp : UInt64) {j k : UInt64} (hj : j ≤ 0xFF)
    (hk : k ≤ 0xFF) (b : UInt8) :
    (m.write (stackSlot sp j) b).read (stackSlot sp k) = if j = k then b else m.read (stackSlot sp k) := by
  rw [Memory.read_write, stackSlot_and_mask hwidth, stackSlot_and_mask hwidth]
  refine if_congr ⟨stackSlot_injective sp hj hk, ?_⟩ rfl rfl
  rintro rfl
  rfl

/-! ## States -/

/-- The 6502 with given register values and memory that has executed `n` instructions since its reset. -/
def machine (r : Registers) (m : Memory) (n : Nat) : Cpu where
  arch := architecture
  registers := r.file
  memory := m
  steps := n
  ready := true

theorem Sound.exists_machine {P : Kept} {n : Nat} {c : Cpu} (h : Sound P n c) :
    ∃ r, P.holds r ∧ c = machine r c.memory n := by
  obtain ⟨r, hr, hrs⟩ := h.registers
  refine ⟨r, hr, ?_⟩
  obtain ⟨arch, registers, memory, steps, ready, fault⟩ := c
  obtain ⟨rfl, rfl, rfl, rfl, -⟩ := h
  cases hrs
  rfl

section

variable (r : Registers) (m : Memory) (n : Nat)

@[simp] theorem arch_machine : (machine r m n).arch = architecture := rfl

@[simp] theorem memory_machine : (machine r m n).memory = m := rfl

@[simp] theorem pc_machine : (machine r m n).pc = r.pc := rfl

@[simp] theorem get_a_machine : (machine r m n).get Reg.a = r.a := rfl

@[simp] theorem get_x_machine : (machine r m n).get Reg.x = r.x := rfl

@[simp] theorem get_y_machine : (machine r m n).get Reg.y = r.y := rfl

@[simp] theorem get_sp_machine : (machine r m n).get Reg.sp = r.sp := rfl

@[simp] theorem get_p_machine : (machine r m n).get Reg.p = r.p := rfl

@[simp] theorem flag_machine (f : Flag) : flag (machine r m n) f = r.flag f := by
  cases f <;> rfl

@[simp] theorem setFlag_machine (f : Flag) (on : Bool) :
    setFlag (machine r m n) f on = machine (r.setFlag f on) m n := by
  cases f <;> cases on <;> rfl

@[simp] theorem setZN_machine (result : UInt64) :
    setZN (machine r m n) result = machine (r.setZN result) m n := by
  simp only [setZN, setFlag_machine, Registers.setZN]

@[simp] theorem set_a_machine (v : UInt64) :
    (machine r m n).set Reg.a v = machine { r with a := v &&& 0xFF } m n := by
  rw [← Word.mask_eight]
  rfl

@[simp] theorem set_x_machine (v : UInt64) :
    (machine r m n).set Reg.x v = machine { r with x := v &&& 0xFF } m n := by
  rw [← Word.mask_eight]
  rfl

@[simp] theorem set_y_machine (v : UInt64) :
    (machine r m n).set Reg.y v = machine { r with y := v &&& 0xFF } m n := by
  rw [← Word.mask_eight]
  rfl

@[simp] theorem set_sp_machine (v : UInt64) :
    (machine r m n).set Reg.sp v = machine { r with sp := v &&& 0xFF } m n := by
  rw [← Word.mask_eight]
  rfl

@[simp] theorem set_p_machine (v : UInt64) :
    (machine r m n).set Reg.p v = machine { r with p := v &&& 0xFF } m n := by
  rw [← Word.mask_eight]
  rfl

@[simp] theorem set_pc_machine (v : UInt64) :
    (machine r m n).set Reg.pc v = machine { r with pc := v &&& 0xFFFF } m n := by
  rw [← Word.mask_sixteen]
  rfl

/-! ## The stack -/

theorem push_machine (b : UInt8) : stack.push (machine r m n) b =
    .ok (machine { r with sp := (r.sp - 1) &&& 0xFF } (m.write (stackBase + r.sp) b) n) := by
  rw [← Word.mask_eight]
  rfl

theorem pull_machine : stack.pull (machine r m n) =
    .ok (m.read (stackBase + ((r.sp + 1) &&& 0xFF)), machine { r with sp := (r.sp + 1) &&& 0xFF } m n) := by
  have hpull : stack.pull (machine r m n) = .ok (m.read (stackBase + ((r.sp + 1) &&& Word.mask 8)),
      (machine r m n).set Reg.sp ((r.sp + 1) &&& Word.mask 8)) := rfl
  rw [hpull, set_sp_machine, Word.mask_eight, UInt64.and_assoc, UInt64.and_self]

/-- The memory after the bytes of an address were pushed, the high one first. -/
def pushedWord (m : Memory) (sp v : UInt64) : Memory :=
  (m.write (stackBase + sp) (v >>> 8).toUInt8).write (stackBase + ((sp - 1) &&& 0xFF)) v.toUInt8

theorem pushWord_machine (v : UInt64) : stack.pushWord (machine r m n) v 2 =
    .ok (machine { r with sp := (r.sp - 2) &&& 0xFF } (pushedWord m r.sp v) n) := by
  have hsp : (((r.sp - 1) &&& 0xFF) - 1) &&& 0xFF = (r.sp - 2) &&& 0xFF := by
    rw [Word.and_byte_sub]
    congr 1
    grind
  show stack.pushBytes (machine r m n) [(v >>> 8).toUInt8, v.toUInt8] = _
  simp only [Stack.pushBytes, push_machine, bind, Except.bind, hsp, pushedWord]

/-- The address that is pulled from a stack pointer on, the low byte first. -/
def pulledWord (m : Memory) (sp : UInt64) : UInt64 :=
  Word.ofLittleBytes [m.read (stackBase + ((sp + 1) &&& 0xFF)), m.read (stackBase + ((sp + 2) &&& 0xFF))]

theorem pulledWord_and_byte (m : Memory) (sp : UInt64) : pulledWord m (sp &&& 0xFF) = pulledWord m sp := by
  simp only [pulledWord, Word.and_byte_add]

theorem pullWord_machine : stack.pullWord (machine r m n) 2 =
    .ok (pulledWord m r.sp, machine { r with sp := (r.sp + 2) &&& 0xFF } m n) := by
  have hsp : (((r.sp + 1) &&& 0xFF) + 1) &&& 0xFF = (r.sp + 2) &&& 0xFF := by
    rw [Word.and_byte_add]
    congr 1
    grind
  simp only [Stack.pullWord, Stack.pullBytes, pull_machine, bind, Except.bind, pure, Except.pure, hsp,
    pulledWord]

theorem pushStatus_machine : pushStatus (machine r m n) =
    .ok (machine { r with sp := (r.sp - 1) &&& 0xFF }
      (m.write (stackBase + r.sp) (r.p ||| breakBit ||| unusedBit).toUInt8) n) := push_machine r m n _

/-- The status that a pulled byte stands for. -/
def pulledStatus (b : UInt8) : UInt64 := ((b.toUInt64 &&& ~~~breakBit) ||| unusedBit) &&& 0xFF

theorem pullStatus_machine : pullStatus (machine r m n) =
    .ok (machine { r with
      sp := (r.sp + 1) &&& 0xFF
      p := pulledStatus (m.read (stackBase + ((r.sp + 1) &&& 0xFF))) } m n) := by
  simp only [pullStatus, pull_machine, bind, Except.bind, pure, Except.pure, set_p_machine, pulledStatus]

/-! ## Calls and returns -/

variable (i : Instruction)

theorem run_jsr_machine {addr : UInt64} (haddr : i.operand.address = some addr) :
    Operation.jsr.run (machine r m n) i =
      jump (machine { r with sp := (r.sp - 2) &&& 0xFF } (pushedWord m r.sp (i.pc + 2)) n) addr := by
  simp only [Operation.run, Instruction.withTarget, haddr, pushWord_machine, attempt]

theorem run_rts_machine : Operation.rts.run (machine r m n) i =
    jump (machine { r with sp := (r.sp + 2) &&& 0xFF } m n) (pulledWord m r.sp + 1) := by
  simp only [Operation.run, pullWord_machine, attempt]

/-- The memory after an interrupt pushed the return address and the status. -/
def pushedInterrupt (m : Memory) (sp v p : UInt64) : Memory :=
  (pushedWord m sp v).write (stackBase + ((sp - 2) &&& 0xFF)) (p ||| breakBit ||| unusedBit).toUInt8

/-- The flag that an interrupt sets is not yet set in the status that it pushes. -/
theorem run_brk_machine : Operation.brk.run (machine r m n) i =
    jump (machine ({ r with sp := (r.sp - 3) &&& 0xFF }.setFlag .interrupt true)
      (pushedInterrupt m r.sp (i.pc + 2) r.p) n)
      ((pushedInterrupt m r.sp (i.pc + 2) r.p).readWord vectorIrq 2) := by
  have hsp : (((r.sp - 2) &&& 0xFF) - 1) &&& 0xFF = (r.sp - 3) &&& 0xFF := by
    rw [Word.and_byte_sub]
    congr 1
    grind
  simp only [Operation.run, pushWord_machine, pushStatus_machine, attempt, setFlag_machine, memory_machine, hsp,
    pushedInterrupt]

/-- The return address is pulled from above the status. -/
theorem run_rti_machine : Operation.rti.run (machine r m n) i =
    jump (machine { r with
      sp := (r.sp + 3) &&& 0xFF
      p := pulledStatus (m.read (stackBase + ((r.sp + 1) &&& 0xFF))) } m n) (pulledWord m (r.sp + 1)) := by
  have hsp : (((r.sp + 1) &&& 0xFF) + 2) &&& 0xFF = (r.sp + 3) &&& 0xFF := by
    rw [Word.and_byte_add]
    congr 1
    grind
  simp only [Operation.run, pullStatus_machine, pullWord_machine, attempt, hsp, pulledWord_and_byte]

end

/-! ## Steps -/

/-- The next instruction of a processor. -/
def Fetches (c : Cpu) (op : Operation) (a : Addressing) : Prop :=
  table.decode? (c.memory.read c.pc) = some ⟨op.name, a.mode, c.memory.read c.pc⟩

theorem Fetches.unique {c : Cpu} {op op' : Operation} {a a' : Addressing} (h : Fetches c op a)
    (h' : Fetches c op' a') : op = op' ∧ a = a' := by
  have heq := Option.some.inj (h.symm.trans h')
  exact ⟨Operation.name_injective (congrArg Entry.mnemonic heq),
    Addressing.mode_injective (congrArg Entry.mode heq)⟩

theorem Fetches.mem_opcodes {c : Cpu} {op : Operation} {a : Addressing} (h : Fetches c op a) :
    (a, c.memory.read c.pc) ∈ op.opcodes := by
  obtain ⟨op', a', hmem, heq⟩ := exists_of_decode? h
  obtain rfl : op = op' := Operation.name_injective (congrArg Entry.mnemonic heq)
  obtain rfl : a = a' := Addressing.mode_injective (congrArg Entry.mode heq)
  exact hmem

/-- A byte in memory is fetched as the instruction that it is the opcode of. -/
theorem fetches_of_mem_opcodes {c : Cpu} {op : Operation} {a : Addressing}
    (h : (a, c.memory.read c.pc) ∈ op.opcodes) : Fetches c op a :=
  decode?_of_mem_table (e := ⟨op.name, a.mode, c.memory.read c.pc⟩) (mem_table_iff.2 h)

section

variable {r r' : Registers} {m m' : Memory} {n : Nat} {op : Operation} {a : Addressing}
  {next : Option UInt64}

/-- All registers are there, so that an instruction is run. -/
theorem execute_machine (op : Operation) (mode : Mode) (b : UInt8) (operand : Resolved) (pc : UInt64) :
    execute (machine r m n) ⟨op.name, mode, b⟩ operand pc = op.run (machine r m n) ⟨mode, operand, pc⟩ := by
  have hused : (used.find? fun name => ((machine r m n).registers.find? name).isNone) = none := rfl
  rw [execute, Operation.ofName?_name]
  simp only [hused]

/-- The operand of the next instruction in an addressing mode. -/
def fetched (c : Cpu) (a : Addressing) : Resolved := a.resolve c (c.operandWord c.pc a.mode) c.pc

theorem resolve_fetched (c : Cpu) (a : Addressing) :
    resolve c a.mode (c.operandWord c.pc a.mode) c.pc = fetched c a := by
  rw [resolve, Addressing.ofMode?_mode, fetched]

theorem perform_machine (b : UInt8)
    (hrun : op.run (machine r m n) ⟨a.mode, fetched (machine r m n) a, r.pc⟩ = ⟨machine r' m' n, .ok next⟩) :
    (machine r m n).perform behaviour ⟨op.name, a.mode, b⟩ =
      (machine { r' with pc := next.getD (r.pc + a.length.toUInt64) &&& 0xFFFF } m' (n + 1), none) := by
  have heffect : behaviour.execute (machine r m n) ⟨op.name, a.mode, b⟩
      (behaviour.resolve (machine r m n) a.mode ((machine r m n).operandWord (machine r m n).pc a.mode)
        (machine r m n).pc) (machine r m n).pc = ⟨machine r' m' n, .ok next⟩ := by
    rw [← hrun, ← execute_machine op a.mode b, ← resolve_fetched]
    rfl
  have hset : ∀ v, (machine r' m' n).set (machine r' m' n).arch.pc
      (v &&& (machine r' m' n).arch.addressMask) = machine { r' with pc := v &&& 0xFFFF } m' n := by
    intro v
    have hmask : (machine r' m' n).arch.addressMask = 0xFFFF := Word.mask_sixteen
    rw [hmask]
    show (machine r' m' n).set Reg.pc _ = _
    rw [set_pc_machine, UInt64.and_assoc, UInt64.and_self]
  have hperform := Cpu.perform_of_next (congrArg Effect.next heffect)
  rw [heffect] at hperform
  rw [hperform]
  simp only [hset]
  rfl

/-- A step has the effect of the next instruction. -/
theorem step_machine (h : Fetches (machine r m n) op a)
    (hrun : op.run (machine r m n) ⟨a.mode, fetched (machine r m n) a, r.pc⟩ = ⟨machine r' m' n, .ok next⟩) :
    (machine r m n).step behaviour =
      (machine { r' with pc := next.getD (r.pc + a.length.toUInt64) &&& 0xFFFF } m' (n + 1), none) := by
  rw [← perform_machine (m.read r.pc) hrun]
  refine Cpu.step_of_decode? rfl rfl rfl ?_
  rw [arch_machine, table_architecture]
  exact h

/-- A step over an instruction that jumps goes to the address that it jumps to. -/
theorem step_machine_of_jump (h : Fetches (machine r m n) op a) {addr : UInt64}
    (hrun : op.run (machine r m n) ⟨a.mode, fetched (machine r m n) a, r.pc⟩ = jump (machine r' m' n) addr) :
    (machine r m n).step behaviour = (machine { r' with pc := addr &&& 0xFFFF } m' (n + 1), none) := by
  rw [step_machine h hrun, Option.getD_some, UInt64.and_assoc, UInt64.and_self]

end

/-! ## Reachable states -/

theorem Run.trans {c d e : Cpu} (hcd : Run c d) (hde : Run d e) : Run c e := by
  induction hde with
  | refl => exact hcd
  | step _ ih => exact ih.step
  | write _ addr b ih => exact ih.write addr b

theorem Run.width {c d : Cpu} (h : Run c d) : d.memory.width = c.memory.width := by
  induction h with
  | refl => rfl
  | step _ ih => exact (written_step .refl).width.trans ih
  | write _ addr b ih => exact ih

/-- The states that a 6502 with its own registers and memory reaches after a reset, while others may write to
its memory. -/
def Reachable (c : Cpu) : Prop := ∃ c₀ entry, IsOwn c₀ ∧ Run (c₀.reset behaviour entry).1 c

namespace Reachable

variable {c d : Cpu}

theorem run (h : Reachable c) (hrun : Run c d) : Reachable d := by
  obtain ⟨c₀, entry, hown, hc⟩ := h
  exact ⟨c₀, entry, hown, hc.trans hrun⟩

theorem step (h : Reachable c) : Reachable (c.step behaviour).1 := h.run (.step .refl)

/-- A run that goes on after a step stays among the reachable states. -/
theorem run_step (h : Reachable c) {c' : Cpu} {e : Option CpuError} (hstep : c.step behaviour = (c', e))
    (hrun : Run c' d) : Reachable d := by
  refine h.step.run ?_
  rwa [hstep]

theorem width (h : Reachable c) : c.memory.width = 16 := by
  obtain ⟨c₀, entry, hown, hc⟩ := h
  rw [hc.width, reset_of_own hown.arch hown.registers]
  exact hown.width

/-- A reachable state has valid registers. -/
theorem sound (h : Reachable c) : ∃ n, Sound .valid n c := by
  obtain ⟨c₀, entry, hown, hc⟩ := h
  obtain ⟨c₁, hreset, hsound⟩ := reset_eq hown.arch hown.fault hown.registers entry
  rw [hreset] at hc
  exact hc.sound hsound

theorem exists_machine (h : Reachable c) : ∃ r n, r.Valid ∧ c = machine r c.memory n := by
  obtain ⟨n, hn⟩ := h.sound
  obtain ⟨r, hr, heq⟩ := hn.exists_machine
  exact ⟨r, n, hr, heq⟩

end Reachable

/-- The state after the first instruction, if it does not jump, is reachable. -/
theorem reachable_of_run {m : Memory} (hwidth : m.width = 16) {entry : UInt64} (hentry : entry ≤ 0xFFFF)
    {op : Operation} {a : Addressing} (hmem : (a, m.read entry) ∈ op.opcodes) {r : Registers}
    (hrun : op.run (machine (.initial entry) m 0) ⟨a.mode, fetched (machine (.initial entry) m 0) a, entry⟩ =
      proceed (machine r m 0)) :
    Reachable (machine { r with pc := (entry + a.length.toUInt64) &&& 0xFFFF } m 1) := by
  set start : Cpu := { Cpu.ofArchitecture architecture with memory := m }
  have hpc : (Registers.initial entry).pc = entry := by
    rw [Registers.initial, Word.mask_sixteen, Word.and_address_of_le hentry]
  have hreset : (start.reset behaviour entry).1 = machine (.initial entry) m 0 := by
    rw [reset_of_own rfl rfl]
    rfl
  have hfetches : Fetches (machine (.initial entry) m 0) op a := by
    refine fetches_of_mem_opcodes ?_
    rwa [memory_machine, pc_machine, hpc]
  have heffect : op.run (machine (.initial entry) m 0)
      ⟨a.mode, fetched (machine (.initial entry) m 0) a, (Registers.initial entry).pc⟩ =
        ⟨machine r m 0, .ok none⟩ := by
    rw [hpc]
    exact hrun
  have hstep : ((start.reset behaviour entry).1.step behaviour).1 =
      machine { r with pc := (entry + a.length.toUInt64) &&& 0xFFFF } m 1 := by
    rw [hreset, step_machine hfetches heffect, hpc]
    rfl
  rw [← hstep]
  exact ⟨start, entry, ⟨rfl, rfl, rfl, hwidth⟩, .step .refl⟩

end Mos6502

end EightBit
