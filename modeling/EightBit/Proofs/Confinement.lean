import Mathlib
import EightBit.Mos6502.Execution
import EightBit.Proofs.Failure

/-!
# What an instruction can change

An instruction of the 6502 sets registers and writes bytes to memory, and does nothing else to the processor,
whether or not it succeeds. So a property that survives these two survives every instruction. What is left
untouched is told by such a property: the width of the memory, or the number of instructions so far.

* `Mos6502.Stable`: a property that survives setting registers and writing bytes.
* `Mos6502.Stable.execute`: such a property survives every instruction.
* `Behaviour.KeepsCount`: instructions do not count themselves; `Cpu.steps_step` is then the count of a step.
-/

namespace EightBit

namespace Mos6502

/-- A property of processors that survives setting registers and writing bytes to memory. -/
structure Stable (P : Cpu → Prop) : Prop where
  /-- Registers may be set. -/
  registers {c : Cpu} (h : P c) (r : RegisterFile) : P { c with registers := r }
  /-- Bytes may be written. -/
  write {c : Cpu} (h : P c) (addr : UInt64) (b : UInt8) : P { c with memory := c.memory.write addr b }

namespace Stable

variable {P : Cpu → Prop} (hP : Stable P) {c c' : Cpu}

include hP

/-! ## The stack -/

theorem push (h : P c) {b : UInt8} (hpush : stack.push c b = .ok c') : P c' := by
  obtain ⟨sp, -, hc'⟩ := exists_of_bind_eq_ok hpush
  rw [← Except.ok.inj hc']
  exact hP.registers (hP.write h _ _) _

theorem pushBytes (h : P c) {bytes : List UInt8} (hpush : stack.pushBytes c bytes = .ok c') : P c' := by
  induction bytes generalizing c with
  | nil => exact Except.ok.inj hpush ▸ h
  | cons b rest ih =>
    obtain ⟨c₁, hfirst, hrest⟩ := exists_of_bind_eq_ok hpush
    exact ih (hP.push h hfirst) hrest

theorem pull (h : P c) {b : UInt8} (hpull : stack.pull c = .ok (b, c')) : P c' := by
  obtain ⟨sp, -, hc'⟩ := exists_of_bind_eq_ok hpull
  cases hc'
  exact hP.registers h _

theorem pullBytes {n : Nat} (h : P c) {bytes : List UInt8}
    (hpull : stack.pullBytes c n = .ok (bytes, c')) : P c' := by
  induction n generalizing c bytes c' with
  | zero =>
    cases hpull
    exact h
  | succ n ih =>
    obtain ⟨⟨b, c₁⟩, hfirst, hrest⟩ := exists_of_bind_eq_ok hpull
    obtain ⟨⟨more, c₂⟩, hmore, hc'⟩ := exists_of_bind_eq_ok hrest
    cases hc'
    exact ih (hP.pull h hfirst) hmore

theorem pullWord {n : Nat} (h : P c) {v : UInt64} (hpull : stack.pullWord c n = .ok (v, c')) : P c' := by
  obtain ⟨⟨bytes, c₁⟩, hbytes, hc'⟩ := exists_of_bind_eq_ok hpull
  cases hc'
  exact hP.pullBytes h hbytes

theorem pullStatus (h : P c) (hpull : Mos6502.pullStatus c = .ok c') : P c' := by
  obtain ⟨⟨b, c₁⟩, hbyte, hc'⟩ := exists_of_bind_eq_ok hpull
  rw [← Except.ok.inj hc']
  exact hP.registers (hP.pull h hbyte) _

/-! ## Operands -/

omit hP in
/-- What fails leaves the processor as it is. -/
theorem attempt {α : Type} {r : Except CpuError α} {f : α → Effect} (h : P c)
    (hf : ∀ v, r = .ok v → P (f v).cpu) : P (Mos6502.attempt c r f).cpu := by
  cases r with
  | ok v => exact hf v rfl
  | error e => exact h

section

variable {i : Instruction}

omit hP in
theorem withValue (h : P c) {f : UInt64 → Effect} (hf : ∀ v, P (f v).cpu) : P (i.withValue c f).cpu := by
  unfold Instruction.withValue
  split
  · exact hf _
  · exact h

omit hP in
theorem withTarget (h : P c) {f : UInt64 → Effect} (hf : ∀ addr, P (f addr).cpu) :
    P (i.withTarget c f).cpu := by
  unfold Instruction.withTarget
  split
  · exact hf _
  · exact h

theorem store (h : P c) (v : UInt64) : P (i.store c v).cpu :=
  withTarget h fun addr => hP.write h addr v.toUInt8

theorem writeBack (h : P c) (v : UInt64) : P (i.writeBack c v).cpu := by
  unfold Instruction.writeBack
  split_ifs
  · exact hP.registers h _
  · exact hP.store h v

theorem shift (h : P c) (f : UInt64 → Bool → UInt64 × Bool) : P (i.shift c f).cpu :=
  withValue h fun _ => hP.writeBack (hP.registers h _) _

theorem increment (h : P c) (delta : UInt64) : P (i.step c delta).cpu :=
  withValue h fun _ => hP.store (hP.registers h _) _

omit hP in
theorem branch (h : P c) (taken : Bool) : P (i.branch c taken).cpu := by
  unfold Instruction.branch
  split_ifs
  · exact withTarget h fun _ => h
  · exact h

end

/-! ## Instructions -/

/-- What survives setting registers and writing bytes survives every operation. -/
theorem run (h : P c) (i : Instruction) (op : Operation) : P (op.run c i).cpu := by
  unfold Operation.run
  cases op with
  | adc | sbc | bit => exact withValue h fun _ => hP.registers h _
  | and | ora | eor | cmp | cpx | cpy | lda | ldx | ldy => exact withValue h fun _ => hP.registers h _
  | asl | lsr | rol | ror => exact hP.shift h _
  | bcc | bcs | bne | beq | bpl | bmi | bvc | bvs => exact branch h _
  | clc | cld | cli | clv | sec | sed | sei => exact hP.registers h _
  | nop => exact h
  | dec | inc => exact hP.increment h _
  | dex | dey | inx | iny | tax | tay | tsx | txa | txs | tya => exact hP.registers h _
  | jmp => exact withTarget h fun _ => h
  | sta | stx | sty => exact hP.store h _
  | jsr => exact withTarget h fun _ => attempt h fun _ => hP.pushBytes h
  | brk =>
    refine attempt h fun c₁ hreturn => ?_
    have h₁ := hP.pushBytes h hreturn
    exact attempt h₁ fun _ hstatus => hP.registers (hP.push h₁ hstatus) _
  | pha | php => exact attempt h fun _ => hP.push h
  | rts => exact attempt h fun _ hpull => hP.pullWord h hpull
  | pla => exact attempt h fun _ hpull => hP.registers (hP.pull h hpull) _
  | plp => exact attempt h fun _ => hP.pullStatus h
  | rti =>
    refine attempt h fun c₁ hstatus => ?_
    have h₁ := hP.pullStatus h hstatus
    exact attempt h₁ fun _ hpull => hP.pullWord h₁ hpull

/-- What survives setting registers and writing bytes survives every instruction, whatever becomes of it. -/
theorem execute (h : P c) (e : Entry) (op : Resolved) (pc : UInt64) : P (Mos6502.execute c e op pc).cpu := by
  unfold Mos6502.execute
  split
  · exact h
  · split
    · exact h
    · exact hP.run h _ _

end Stable

end Mos6502

namespace Cpu

/-- A step that performs no instruction fails, and at most stops the processor. -/
theorem step_cases (b : Behaviour) (c : Cpu) :
    (∃ err fault, c.step b = ({ c with fault }, some err)) ∨ ∃ e, c.step b = c.perform b e := by
  unfold step
  split
  · exact .inl ⟨_, c.fault, rfl⟩
  · split
    · exact .inl ⟨_, c.fault, rfl⟩
    · split
      · exact .inl ⟨_, _, rfl⟩
      · split
        · exact .inl ⟨_, c.fault, rfl⟩
        · exact .inr ⟨_, rfl⟩

end Cpu

/-! ## The count of instructions -/

/-- The instructions of a processor leave it to the processor to count them. -/
def Behaviour.KeepsCount (b : Behaviour) : Prop :=
  ∀ (c : Cpu) (e : Entry) (op : Resolved) (pc : UInt64), (b.execute c e op pc).cpu.steps = c.steps

theorem Mos6502.keepsCount_behaviour : behaviour.KeepsCount := by
  intro c e op pc
  have hstable : Stable fun c' => c'.steps = c.steps := ⟨fun h _ => h, fun h _ _ => h⟩
  exact hstable.execute rfl e op pc

/-- A step counts itself exactly if it succeeds. -/
theorem Cpu.steps_step {b : Behaviour} (hb : b.KeepsCount) (c : Cpu) :
    (c.step b).1.steps = c.steps + if (c.step b).2.isNone then 1 else 0 := by
  obtain ⟨err, fault, hstep⟩ | ⟨e, hstep⟩ := c.step_cases b
  · rw [hstep]
    rfl
  · rw [hstep, perform]
    have hcount := hb c e (b.resolve c e.mode (c.operandWord c.pc e.mode) c.pc) c.pc
    dsimp only
    split
    · exact hcount
    · exact congrArg (· + 1) hcount

end EightBit
