import Mathlib
import EightBit.Proofs.Registers
import EightBit.Proofs.Table

/-!
# Runs of the 6502

A 6502 with its own registers never gets stuck. After a reset, whatever it executes and whatever is written
to its memory meanwhile, its registers stay valid, and an instruction fails only because its opcode is
unknown, which changes nothing.

* `Mos6502.Operation.run_succeeds`: every instruction succeeds on an operand that its modes supply.
* `Mos6502.Sound.step`: one instruction.
* `Mos6502.Installed`: processors with their own registers; `Mos6502.Run` are their runs.
* `Mos6502.run_sound`: what holds along every run.
-/

namespace EightBit

/-- An instruction that does not fail is followed by the next one. -/
theorem Cpu.perform_of_next {b : Behaviour} {c : Cpu} {e : Entry} {next : Option UInt64}
    (h : (b.execute c e (b.resolve c e.mode (c.operandWord c.pc e.mode) c.pc) c.pc).next = .ok next) :
    c.perform b e =
      let c' := (b.execute c e (b.resolve c e.mode (c.operandWord c.pc e.mode) c.pc) c.pc).cpu
      ({ c'.set c'.arch.pc (next.getD (c.pc + e.mode.length.toUInt64) &&& c'.arch.addressMask) with
        steps := c'.steps + 1 }, none) := by
  simp only [perform, h]

namespace Mos6502

/-! ## Effects of instructions -/

/-- An effect without an error that leaves a sound processor. -/
def Succeeds (P : Kept) (n : Nat) (e : Effect) : Prop := Sound P n e.cpu ∧ ∃ next, e.next = .ok next

section

variable {P : Kept} {n : Nat} {c : Cpu} {i : Instruction}

theorem Sound.proceed (h : Sound P n c) : Succeeds P n (proceed c) := ⟨h, none, rfl⟩

theorem Sound.jump (h : Sound P n c) (addr : UInt64) : Succeeds P n (jump c addr) := ⟨h, _, rfl⟩

theorem Sound.transfer (h : Sound P n c) (source : Text) {target : Text}
    (hreg : target ∈ freeRegisters) : Succeeds P n (transfer c source target) :=
  (h.setZNReg hreg _).proceed

theorem Sound.increment (h : Sound P n c) {reg : Text}
    (hreg : reg ∈ freeRegisters) (delta : UInt64) :
    Succeeds P n (increment c reg delta) :=
  (h.setZNReg hreg _).proceed

/-- What may fail is followed by what succeeds if it does not fail. -/
theorem succeeds_attempt {α : Type} {r : Except CpuError α} {v : α} {f : α → Effect} (hr : r = .ok v)
    (hf : Succeeds P n (f v)) : Succeeds P n (attempt c r f) := by
  subst hr
  exact hf

namespace Instruction

theorem succeeds_withValue (hv : i.operand.value.isSome) {f : UInt64 → Effect}
    (hf : ∀ v, Succeeds P n (f v)) : Succeeds P n (i.withValue c f) := by
  obtain ⟨v, hv⟩ := Option.isSome_iff_exists.1 hv
  rw [withValue, hv]
  exact hf v

theorem succeeds_withTarget (ht : i.operand.address.isSome) {f : UInt64 → Effect}
    (hf : ∀ addr, Succeeds P n (f addr)) : Succeeds P n (i.withTarget c f) := by
  obtain ⟨addr, ht⟩ := Option.isSome_iff_exists.1 ht
  rw [withTarget, ht]
  exact hf addr

theorem succeeds_store (h : Sound P n c) (ht : i.operand.address.isSome) (v : UInt64) :
    Succeeds P n (i.store c v) :=
  succeeds_withTarget ht fun _ => (h.withMemory _).proceed

theorem succeeds_writeBack (h : Sound P n c)
    (hback : i.mode = Addressing.acc.mode ∨ i.operand.address.isSome) (v : UInt64) :
    Succeeds P n (i.writeBack c v) := by
  unfold writeBack
  split_ifs with hacc
  · exact (h.set (by simp [freeRegisters]) v).proceed
  · exact succeeds_store h (hback.resolve_left hacc) v

theorem succeeds_load (h : Sound P n c) (hv : i.operand.value.isSome) {reg : Text}
    (hreg : reg ∈ freeRegisters) : Succeeds P n (i.load c reg) :=
  succeeds_withValue hv fun v => (h.setZNReg hreg v).proceed

theorem succeeds_logic (h : Sound P n c) (hv : i.operand.value.isSome) (f : UInt64 → UInt64 → UInt64) :
    Succeeds P n (i.logic c f) :=
  succeeds_withValue hv fun _ => (h.setZNReg (by simp [freeRegisters]) _).proceed

theorem sound_addTo (h : Sound P n c) (v : UInt64) : Sound P n (addTo c v) :=
  ((h.setFlag .carry _).setFlag .overflow _).setZNReg (by simp [freeRegisters]) _

theorem succeeds_compare (h : Sound P n c) (hv : i.operand.value.isSome) (reg : Text) :
    Succeeds P n (i.compare c reg) :=
  succeeds_withValue hv fun _ => ((h.setFlag .carry _).setZN _).proceed

theorem succeeds_shift (h : Sound P n c) (hv : i.operand.value.isSome)
    (hback : i.mode = Addressing.acc.mode ∨ i.operand.address.isSome)
    (f : UInt64 → Bool → UInt64 × Bool) : Succeeds P n (i.shift c f) :=
  succeeds_withValue hv fun _ => succeeds_writeBack ((h.setFlag .carry _).setZN _) hback _

theorem succeeds_step (h : Sound P n c) (hv : i.operand.value.isSome) (ht : i.operand.address.isSome)
    (delta : UInt64) : Succeeds P n (i.step c delta) :=
  succeeds_withValue hv fun _ => succeeds_store (h.setZN _) ht _

theorem succeeds_branch (h : Sound P n c) (ht : i.operand.address.isSome) (taken : Bool) :
    Succeeds P n (i.branch c taken) := by
  unfold branch
  split_ifs
  · exact succeeds_withTarget ht h.jump
  · exact h.jump _

end Instruction

end

/-! ## What instructions need and addressing modes supply -/

/-- Whether an addressing mode supplies a value. -/
def Addressing.hasValue : Addressing → Bool
  | imp | ind | rel => false
  | _ => true

/-- Whether an addressing mode supplies an address. -/
def Addressing.hasTarget : Addressing → Bool
  | imp | acc | imm => false
  | _ => true

theorem Addressing.isSome_value_resolve (a : Addressing) (c : Cpu) (raw pc : UInt64) :
    (a.resolve c raw pc).value.isSome = a.hasValue := by
  cases a <;> rfl

theorem Addressing.isSome_address_resolve (a : Addressing) (c : Cpu) (raw pc : UInt64) :
    (a.resolve c raw pc).address.isSome = a.hasTarget := by
  cases a <;> rfl

namespace Operation

/-- Whether an instruction uses the value of its operand. -/
def needsValue : Operation → Bool
  | adc | sbc | and | ora | eor | asl | lsr | rol | ror | bit | cmp | cpx | cpy | dec | inc | lda | ldx
  | ldy => true
  | _ => false

/-- Whether an instruction uses the address of its operand. -/
def needsTarget : Operation → Bool
  | bcc | bcs | bne | beq | bpl | bmi | bvc | bvs | dec | inc | jmp | jsr | sta | stx | sty => true
  | _ => false

/-- Whether an instruction writes its result to where the operand came from. -/
def writesBack : Operation → Bool
  | asl | lsr | rol | ror => true
  | _ => false

/-- Every addressing mode of an instruction supplies what the instruction needs. -/
theorem supplied (op : Operation) : ∀ x ∈ op.opcodes,
    (op.needsValue → x.1.hasValue) ∧ (op.needsTarget → x.1.hasTarget) ∧
      (op.writesBack → x.1 = .acc ∨ x.1.hasTarget) := by
  cases op <;> decide

/-- An instruction succeeds on an operand that has what it needs. -/
theorem run_succeeds {P : Kept} {n : Nat} {c : Cpu} (h : Sound P n c) {i : Instruction} (op : Operation)
    (hv : op.needsValue → i.operand.value.isSome) (ht : op.needsTarget → i.operand.address.isSome)
    (hback : op.writesBack → i.mode = Addressing.acc.mode ∨ i.operand.address.isSome) :
    Succeeds P n (op.run c i) := by
  -- One case per instruction, by the lemma of the family that it belongs to.
  unfold run
  cases op with
  | adc =>
    exact i.succeeds_withValue (hv rfl) fun v => (Instruction.sound_addTo h v).proceed
  | sbc =>
    exact i.succeeds_withValue (hv rfl) fun v => (Instruction.sound_addTo h _).proceed
  | and => exact i.succeeds_logic h (hv rfl) _
  | ora => exact i.succeeds_logic h (hv rfl) _
  | eor => exact i.succeeds_logic h (hv rfl) _
  | asl => exact i.succeeds_shift h (hv rfl) (hback rfl) _
  | lsr => exact i.succeeds_shift h (hv rfl) (hback rfl) _
  | rol => exact i.succeeds_shift h (hv rfl) (hback rfl) _
  | ror => exact i.succeeds_shift h (hv rfl) (hback rfl) _
  | bit =>
    exact i.succeeds_withValue (hv rfl) fun v =>
      (((h.setFlag .zero _).setFlag .negative _).setFlag .overflow _).proceed
  | bcc => exact i.succeeds_branch h (ht rfl) _
  | bcs => exact i.succeeds_branch h (ht rfl) _
  | bne => exact i.succeeds_branch h (ht rfl) _
  | beq => exact i.succeeds_branch h (ht rfl) _
  | bpl => exact i.succeeds_branch h (ht rfl) _
  | bmi => exact i.succeeds_branch h (ht rfl) _
  | bvc => exact i.succeeds_branch h (ht rfl) _
  | bvs => exact i.succeeds_branch h (ht rfl) _
  | brk =>
    obtain ⟨c₁, hpush, h₁⟩ := h.pushWord (i.pc + 2) 2
    obtain ⟨c₂, hstatus, h₂⟩ := h₁.pushStatus
    exact succeeds_attempt hpush (succeeds_attempt hstatus ((h₂.setFlag .interrupt true).jump _))
  | clc => exact (h.setFlag .carry false).proceed
  | cld => exact (h.setFlag .decimal false).proceed
  | cli => exact (h.setFlag .interrupt false).proceed
  | clv => exact (h.setFlag .overflow false).proceed
  | sec => exact (h.setFlag .carry true).proceed
  | sed => exact (h.setFlag .decimal true).proceed
  | sei => exact (h.setFlag .interrupt true).proceed
  | cmp => exact i.succeeds_compare h (hv rfl) _
  | cpx => exact i.succeeds_compare h (hv rfl) _
  | cpy => exact i.succeeds_compare h (hv rfl) _
  | dec => exact i.succeeds_step h (hv rfl) (ht rfl) _
  | inc => exact i.succeeds_step h (hv rfl) (ht rfl) _
  | dex => exact h.increment (by simp [freeRegisters]) _
  | dey => exact h.increment (by simp [freeRegisters]) _
  | inx => exact h.increment (by simp [freeRegisters]) _
  | iny => exact h.increment (by simp [freeRegisters]) _
  | jmp => exact i.succeeds_withTarget (ht rfl) h.jump
  | jsr =>
    refine i.succeeds_withTarget (ht rfl) fun addr => ?_
    obtain ⟨c₁, hpush, h₁⟩ := h.pushWord (i.pc + 2) 2
    exact succeeds_attempt hpush (h₁.jump addr)
  | rts =>
    obtain ⟨ret, c₁, hpull, h₁⟩ := h.pullWord 2
    exact succeeds_attempt hpull (h₁.jump _)
  | rti =>
    obtain ⟨c₁, hstatus, h₁⟩ := h.pullStatus
    obtain ⟨ret, c₂, hpull, h₂⟩ := h₁.pullWord 2
    exact succeeds_attempt hstatus (succeeds_attempt hpull (h₂.jump _))
  | lda => exact i.succeeds_load h (hv rfl) (by simp [freeRegisters])
  | ldx => exact i.succeeds_load h (hv rfl) (by simp [freeRegisters])
  | ldy => exact i.succeeds_load h (hv rfl) (by simp [freeRegisters])
  | sta => exact i.succeeds_store h (ht rfl) _
  | stx => exact i.succeeds_store h (ht rfl) _
  | sty => exact i.succeeds_store h (ht rfl) _
  | nop => exact h.proceed
  | pha =>
    obtain ⟨c₁, hpush, h₁⟩ := h.push (c.get Reg.a).toUInt8
    exact succeeds_attempt hpush h₁.proceed
  | php =>
    obtain ⟨c₁, hstatus, h₁⟩ := h.pushStatus
    exact succeeds_attempt hstatus h₁.proceed
  | pla =>
    obtain ⟨b, c₁, hpull, h₁⟩ := h.pull
    exact succeeds_attempt hpull (h₁.setZNReg (by simp [freeRegisters]) _).proceed
  | plp =>
    obtain ⟨c₁, hstatus, h₁⟩ := h.pullStatus
    exact succeeds_attempt hstatus h₁.proceed
  | tax => exact h.transfer _ (by simp [freeRegisters])
  | tay => exact h.transfer _ (by simp [freeRegisters])
  | tsx => exact h.transfer _ (by simp [freeRegisters])
  | txa => exact h.transfer _ (by simp [freeRegisters])
  | txs => exact (h.set (by simp [freeRegisters]) _).proceed
  | tya => exact h.transfer _ (by simp [freeRegisters])

end Operation

/-! ## One instruction -/

namespace Sound

variable {P : Kept} {n : Nat} {c : Cpu}

theorem missing? (h : Sound P n c) : c.missing? behaviour = none := by
  obtain ⟨r, -, hrs⟩ := h.registers
  rw [Cpu.missing?, h.arch, hrs]
  rfl

/-- An instruction is counted once the program counter is set. -/
theorem advance (h : Sound P n c) (v : UInt64) :
    Sound P (n + 1) { c.set c.arch.pc v with steps := c.steps + 1 } := by
  have hset : Sound P n (c.set c.arch.pc v) := by
    rw [h.arch]
    exact h.set (by simp [architecture, Reg.pc, freeRegisters]) v
  exact ⟨hset.arch, hset.ready, hset.fault, congrArg (· + 1) h.steps, hset.registers⟩

/-- An instruction of the table succeeds. -/
theorem perform (h : Sound P n c) {b : UInt8} {e : Entry} (he : table.decode? b = some e) :
    ∃ c', c.perform behaviour e = (c', none) ∧ Sound P (n + 1) c' := by
  obtain ⟨op, a, hopcode, rfl⟩ := exists_of_decode? he
  obtain ⟨hvalue, htarget, hback⟩ := op.supplied (a, b) hopcode
  set operand := resolve c a.mode (c.operandWord c.pc a.mode) c.pc with hoperand
  have hresolve : operand = a.resolve c (c.operandWord c.pc a.mode) c.pc := by
    rw [hoperand, resolve, Addressing.ofMode?_mode]
  have hrun : Succeeds P n (op.run c ⟨a.mode, operand, c.pc⟩) := by
    refine op.run_succeeds h ?_ ?_ ?_
    · intro hneeds
      rw [hresolve, Addressing.isSome_value_resolve]
      exact hvalue hneeds
    · intro hneeds
      rw [hresolve, Addressing.isSome_address_resolve]
      exact htarget hneeds
    · intro hneeds
      rw [hresolve, Addressing.isSome_address_resolve]
      exact (hback hneeds).imp_left (congrArg Addressing.mode)
  -- All registers that instructions use are there, so that the instruction itself is run.
  have hexecute : execute c ⟨op.name, a.mode, b⟩ operand c.pc = op.run c ⟨a.mode, operand, c.pc⟩ := by
    obtain ⟨r, -, hrs⟩ := h.registers
    have hused : (used.find? fun name => (c.registers.find? name).isNone) = none := by
      rw [hrs]
      rfl
    rw [execute, Operation.ofName?_name]
    simp only [hused]
  obtain ⟨hsound, next, hnext⟩ := hrun
  rw [← hexecute] at hsound hnext
  exact ⟨_, Cpu.perform_of_next hnext, hsound.advance _⟩

/-- An instruction that is in the table succeeds and is counted. -/
theorem step_of_known (h : Sound P n c) {e : Entry} (he : table.decode? (c.memory.read c.pc) = some e) :
    ∃ c', c.step behaviour = (c', none) ∧ Sound P (n + 1) c' := by
  obtain ⟨c', hperform, h'⟩ := h.perform he
  refine ⟨c', ?_, h'⟩
  have hdecode : c.arch.table.decode? (c.memory.read c.pc) = some e := by rw [h.arch, table_architecture, he]
  simp [Cpu.step, h.fault, h.ready, h.missing?, hdecode, hperform]

/-- A byte that is not in the table is reported, and nothing changes. -/
theorem step_of_unknown (h : Sound P n c) (he : table.decode? (c.memory.read c.pc) = none) :
    c.step behaviour = (c, some (.opcodeUnknown c.pc (c.memory.read c.pc))) := by
  have hdecode : c.arch.table.decode? (c.memory.read c.pc) = none := by rw [h.arch, table_architecture, he]
  simp [Cpu.step, h.fault, h.ready, h.missing?, hdecode]

/-- A processor stays sound whether or not it knows the next instruction. -/
theorem step (h : Sound P n c) : ∃ k, Sound P k (c.step behaviour).1 := by
  cases he : table.decode? (c.memory.read c.pc) with
  | some e =>
    obtain ⟨c', hstep, h'⟩ := h.step_of_known he
    exact ⟨n + 1, by rw [hstep]; exact h'⟩
  | none => exact ⟨n, by rw [h.step_of_unknown he]; exact h⟩

end Sound

/-! ## Whole runs -/

/-- Processors of the 6502 with its own registers: a new one, one that these registers were installed in,
and what becomes of them. -/
inductive Installed : Cpu → Prop
  | fresh : Installed (.ofArchitecture architecture)
  | configure {c : Cpu} {rs : RegisterFile} (harch : c.arch = architecture)
    (hrs : rs.map Register.definition = registers) : Installed (c.configure rs)
  | set {c : Cpu} (h : Installed c) (reg : Text) (v : UInt64) : Installed (c.set reg v)
  | memory {c : Cpu} (h : Installed c) (m : Memory) : Installed { c with memory := m }
  | reset {c : Cpu} (h : Installed c) (entry : UInt64) : Installed (c.reset behaviour entry).1
  | step {c : Cpu} (h : Installed c) : Installed (c.step behaviour).1

/-- A processor that executes instructions while others write to its memory. -/
inductive Run (c : Cpu) : Cpu → Prop
  | refl : Run c c
  | step {d : Cpu} (h : Run c d) : Run c (d.step behaviour).1
  | write {d : Cpu} (h : Run c d) (addr : UInt64) (b : UInt8) :
    Run c { d with memory := d.memory.write addr b }

/-- The values of the registers after a reset. -/
def Registers.initial (entry : UInt64) : Registers where
  a := 0
  x := 0
  y := 0
  sp := 0xFD
  pc := entry &&& Word.mask 16
  p := 0x24

theorem Registers.valid_initial (entry : UInt64) : (Registers.initial entry).Valid := by
  have hzero : (0 : UInt64) ≤ 0xFF := by decide
  have hsp : (0xFD : UInt64) ≤ 0xFF := by decide
  have hstatus : (0x24 : UInt64) &&& ~~~flagBits = unusedBit := by decide
  exact ⟨hzero, hzero, hzero, hsp, UInt64.and_le_right, hstatus⟩

/-- A reset clears all registers before it sets the stack pointer, the status and the program counter. -/
theorem reset_of_own {c : Cpu} (harch : c.arch = architecture)
    (hown : c.registers.map Register.definition = registers) (entry : UInt64) :
    c.reset behaviour entry =
      ({ c with registers := (Registers.initial entry).file, steps := 0, ready := true }, none) := by
  obtain ⟨r, hrs⟩ := Registers.exists_file hown
  have hmissing : c.missing? behaviour = none := by
    rw [Cpu.missing?, harch, hrs]
    rfl
  have hregisters : ((powerOn { c with registers := c.registers.clear }).set c.arch.pc entry).registers =
      (Registers.initial entry).file := by
    have hsp : 0xFD &&& Word.mask 8 = 0xFD := by decide
    have hp : (unusedBit &&& Word.mask 8) ||| Flag.interrupt.bit = 0x24 := by decide
    rw [harch, hrs, Registers.initial, ← hsp, ← hp]
    rfl
  rw [Cpu.reset, hmissing, ← hregisters]
  rfl

/-- A 6502 with its own registers can always be reset, and runs afterwards. -/
theorem reset_eq {c : Cpu} (harch : c.arch = architecture) (hfault : c.fault = none)
    (hown : c.registers.map Register.definition = registers) (entry : UInt64) :
    ∃ c', c.reset behaviour entry = (c', none) ∧ Sound .valid 0 c' :=
  ⟨_, reset_of_own harch hown entry, harch, rfl, hfault, rfl, _, Registers.valid_initial entry, rfl⟩

/-- A 6502 keeps its own registers, and is not stopped, whether or not it was reset. -/
theorem own_step {c : Cpu} (harch : c.arch = architecture) (hfault : c.fault = none)
    (hown : c.registers.map Register.definition = registers) :
    (c.step behaviour).1.arch = architecture ∧ (c.step behaviour).1.fault = none ∧
      (c.step behaviour).1.registers.map Register.definition = registers := by
  by_cases hready : c.ready
  · -- The values are not known to be valid before a reset, only the registers are.
    obtain ⟨r, hrs⟩ := Registers.exists_file hown
    have hsound : Sound .any c.steps c := ⟨harch, hready, hfault, rfl, r, trivial, hrs⟩
    obtain ⟨k, h'⟩ := hsound.step
    obtain ⟨r', -, hrs'⟩ := h'.registers
    exact ⟨h'.arch, h'.fault, by rw [hrs', Registers.definitions_file]⟩
  · simp [Cpu.step, hfault, hready, harch, hown]

theorem Installed.own {c : Cpu} (h : Installed c) :
    c.arch = architecture ∧ c.fault = none ∧ c.registers.map Register.definition = registers := by
  induction h with
  | fresh => exact ⟨rfl, rfl, rfl⟩
  | configure harch hrs => exact ⟨harch, rfl, hrs⟩
  | set _ reg v ih =>
    refine ⟨ih.1, ih.2.1, ?_⟩
    exact (RegisterFile.definitions_updateWhere _ (f := (·.set v)) (fun _ => rfl) _).trans ih.2.2
  | memory _ m ih => exact ih
  | reset _ entry ih =>
    obtain ⟨c', hreset, h'⟩ := reset_eq ih.1 ih.2.1 ih.2.2 entry
    obtain ⟨r, -, hrs⟩ := h'.registers
    rw [hreset]
    exact ⟨h'.arch, h'.fault, by rw [hrs, Registers.definitions_file]⟩
  | step _ ih => exact own_step ih.1 ih.2.1 ih.2.2

/-- A sound processor stays sound along every run. -/
theorem Run.sound {P : Kept} {n : Nat} {c d : Cpu} (h : Run c d) (hc : Sound P n c) :
    ∃ k, Sound P k d := by
  induction h with
  | refl => exact ⟨n, hc⟩
  | step _ ih =>
    obtain ⟨k, hk⟩ := ih
    exact hk.step
  | write _ addr b ih =>
    obtain ⟨k, hk⟩ := ih
    exact ⟨k, hk.withMemory _⟩

/-- After a reset the registers of a 6502 stay in their bounds whatever it executes and whatever is written
to its memory. The next instruction succeeds if its opcode is known, and else changes nothing. -/
theorem run_sound {c₀ c₁ c : Cpu} {entry : UInt64} (hinstalled : Installed c₀)
    (hreset : c₀.reset behaviour entry = (c₁, none)) (hrun : Run c₁ c) :
    (c.get Reg.a ≤ 0xFF ∧ c.get Reg.x ≤ 0xFF ∧ c.get Reg.y ≤ 0xFF ∧ c.get Reg.sp ≤ 0xFF ∧
      c.get Reg.p ≤ 0xFF ∧ c.pc ≤ 0xFFFF) ∧
    c.get Reg.p &&& breakBit = 0 ∧ c.get Reg.p &&& unusedBit = unusedBit ∧ c.fault = none ∧
    (∀ e, table.decode? (c.memory.read c.pc) = some e →
      ∃ c', c.step behaviour = (c', none) ∧ c'.steps = c.steps + 1) ∧
    (table.decode? (c.memory.read c.pc) = none →
      c.step behaviour = (c, some (.opcodeUnknown c.pc (c.memory.read c.pc)))) := by
  obtain ⟨harch, hfault, hown⟩ := hinstalled.own
  obtain ⟨c', hc', hsound⟩ := reset_eq harch hfault hown entry
  obtain rfl : c₁ = c' := by simpa [hreset] using hc'
  obtain ⟨n, h⟩ := hrun.sound hsound
  -- Along a run the registers stay a valid file, of which all bounds are read off.
  obtain ⟨r, hr, hrs⟩ := h.registers
  have hpc : c.pc = r.pc := by rw [Cpu.pc, h.arch, Cpu.get, hrs]; rfl
  have hp : c.get Reg.p = r.p := by rw [Cpu.get, hrs]; rfl
  refine ⟨?_, ?_, ?_, h.fault, ?_, h.step_of_unknown⟩
  · rw [hpc, hp, Cpu.get, Cpu.get, Cpu.get, Cpu.get, hrs]
    exact ⟨hr.a, hr.x, hr.y, hr.sp, hr.p.le_byte, hr.pc⟩
  · rw [hp]
    exact hr.p.break_eq_zero
  · rw [hp]
    exact hr.p.unused_eq
  · intro e he
    obtain ⟨c', hstep, h'⟩ := h.step_of_known he
    exact ⟨c', hstep, by rw [h'.steps, h.steps]⟩

/-- A program that pushes a byte of ones, pulls it as the status and runs into an unknown opcode. -/
def statusDemo : Cpu :=
  { Cpu.ofArchitecture architecture with
    memory := (Memory.empty 16 none).load 0x0200 [0xA9, 0xFF, 0x48, 0x28, 0x02] .program }

/-- The processor of `statusDemo` once the status is pulled. -/
def statusDemoStopped : Cpu :=
  ((((statusDemo.reset behaviour 0x0200).1.step behaviour).1.step behaviour).1.step behaviour).1

theorem run_sound_statusDemo :
    statusDemo.reset behaviour 0x0200 = ((statusDemo.reset behaviour 0x0200).1, none) ∧
    Run (statusDemo.reset behaviour 0x0200).1 statusDemoStopped ∧
    statusDemoStopped.get Reg.p = 0xEF ∧ statusDemoStopped.get Reg.p &&& breakBit = 0 ∧
    statusDemoStopped.step behaviour =
      (statusDemoStopped, some (.opcodeUnknown statusDemoStopped.pc
        (statusDemoStopped.memory.read statusDemoStopped.pc))) := by
  have hcheck : (statusDemo.reset behaviour 0x0200).2 = none ∧ statusDemoStopped.get Reg.p = 0xEF ∧
      table.decode? (statusDemoStopped.memory.read statusDemoStopped.pc) = none := by
    decide +kernel
  obtain ⟨hnone, hstatus, hdecode⟩ := hcheck
  have hreset := Prod.ext rfl hnone
  have hrun : Run (statusDemo.reset behaviour 0x0200).1 statusDemoStopped := .step (.step (.step .refl))
  obtain ⟨-, hbreak, -, -, -, hunknown⟩ := run_sound (.memory .fresh _) hreset hrun
  exact ⟨hreset, hrun, hstatus, hbreak, hunknown hdecode⟩

end Mos6502

end EightBit
