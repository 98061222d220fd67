import Mathlib
import EightBit.Proofs.Footprint

/-!
# Calls and interrupts return

A call pushes the address of its own last byte, and a return from it adds one to what it pulls. An interrupt
pushes the address behind a byte that is skipped, and the status with two bits that the register lacks. Both
come back: as long as the stack pointer and the bytes that were pushed are the same again, the return leads
behind the call or the interrupt, with the stack pointer, and after an interrupt the status, as they were. The
bytes of the stack page follow each other in a circle, so that none of this depends on the stack pointer.

* `Mos6502.pulledWord_of_pushed`, `Mos6502.pulledStatus_pushed`: what is pulled is what was pushed.
* `Mos6502.KeepsPushed`: what has to be the same when a call or an interrupt returns.
* `Mos6502.calls_return`: calls and interrupts return.
-/

namespace EightBit

namespace Mos6502

/-! ## Bytes of the stack -/

section

variable {m : Memory}

/-- The bytes of an address that was pushed. -/
theorem read_pushedWord (hwidth : 9 ≤ m.width) {sp : UInt64} (hsp : sp ≤ 0xFF) (v : UInt64) :
    (pushedWord m sp v).read (stackSlot sp 0) = (v >>> 8).toUInt8 ∧
      (pushedWord m sp v).read (stackSlot sp 1) = v.toUInt8 := by
  have hpushed : pushedWord m sp v =
      (m.write (stackSlot sp 0) (v >>> 8).toUInt8).write (stackSlot sp 1) v.toUInt8 := by
    rw [stackSlot_zero hsp]
    rfl
  have hfirst : 9 ≤ (m.write (stackSlot sp 0) (v >>> 8).toUInt8).width := hwidth
  have hbytes : (0 : UInt64) ≤ 0xFF ∧ (1 : UInt64) ≤ 0xFF := by decide
  rw [hpushed, read_write_stackSlot hfirst sp hbytes.2 hbytes.1, read_write_stackSlot hfirst sp hbytes.2 hbytes.2,
    read_write_stackSlot hwidth sp hbytes.1 hbytes.1]
  exact ⟨rfl, rfl⟩

/-- The bytes that an interrupt pushed. -/
theorem read_pushedInterrupt (hwidth : 9 ≤ m.width) {sp : UInt64} (hsp : sp ≤ 0xFF) (v p : UInt64) :
    (pushedInterrupt m sp v p).read (stackSlot sp 0) = (v >>> 8).toUInt8 ∧
      (pushedInterrupt m sp v p).read (stackSlot sp 1) = v.toUInt8 ∧
      (pushedInterrupt m sp v p).read (stackSlot sp 2) = (p ||| breakBit ||| unusedBit).toUInt8 := by
  have hpushed : 9 ≤ (pushedWord m sp v).width := hwidth
  obtain ⟨hhigh, hlow⟩ := read_pushedWord hwidth hsp v
  have hbytes : (0 : UInt64) ≤ 0xFF ∧ (1 : UInt64) ≤ 0xFF ∧ (2 : UInt64) ≤ 0xFF := by decide
  have hread := fun k hk => read_write_stackSlot hpushed sp hbytes.2.2 (k := k) hk
    (p ||| breakBit ||| unusedBit).toUInt8
  exact ⟨(hread 0 hbytes.1).trans hhigh, (hread 1 hbytes.2.1).trans hlow, hread 2 hbytes.2.2⟩

/-- The address whose bytes were pushed is pulled again. -/
theorem pulledWord_of_pushed {sp v : UInt64} (hhigh : m.read (stackSlot sp 0) = (v >>> 8).toUInt8)
    (hlow : m.read (stackSlot sp 1) = v.toUInt8) : pulledWord m (sp - 2) = v &&& 0xFFFF := by
  have hslots : stackBase + ((sp - 2 + 1) &&& 0xFF) = stackSlot sp 1 ∧
      stackBase + ((sp - 2 + 2) &&& 0xFF) = stackSlot sp 0 := by
    refine ⟨?_, ?_⟩ <;> · rw [stackSlot]; congr 2; grind
  rw [pulledWord, hslots.1, hslots.2, hhigh, hlow, ← Word.mask_sixteen]
  exact ByteOrder.decode_encode .little v (show 2 < 8 by decide)

/-- A status loses the bits that were added when it was pushed. -/
theorem pulledStatus_pushed {p : UInt64} (h : IsStatus p) :
    pulledStatus (p ||| breakBit ||| unusedBit).toUInt8 = p := by
  have hbits : breakBit &&& (0xFF &&& ~~~breakBit) = 0 ∧ unusedBit &&& (0xFF &&& ~~~breakBit) = unusedBit := by
    decide
  have hcut : (p ||| breakBit ||| unusedBit) &&& (0xFF &&& ~~~breakBit) =
      (p &&& (0xFF &&& ~~~breakBit)) ||| unusedBit := by
    rw [Word.or_and, Word.or_and, hbits.1, hbits.2, UInt64.or_zero]
  have hbreak : p &&& ~~~breakBit = p := by
    have hsplit := Word.and_or_and_not p breakBit
    rwa [h.break_eq_zero, UInt64.zero_or] at hsplit
  have hunused : p ||| unusedBit = p := by
    have hself := Word.and_or_self unusedBit p
    rwa [UInt64.and_comm, h.unused_eq, UInt64.or_comm] at hself
  have hsame := Word.and_byte_of_le h.le_byte
  rw [pulledStatus, Word.toUInt64_toUInt8, UInt64.and_assoc, hcut, ← UInt64.and_assoc, hsame, hbreak,
    UInt64.or_assoc, UInt64.or_self, hunused, hsame]

end

/-! ## Steps -/

/-- The stack pointer, and the first `k` bytes that were pushed from a stack pointer `sp` on, are in a later state
`d` as in a state `c`. -/
structure KeepsPushed (k sp : UInt64) (c d : Cpu) : Prop where
  /-- The stack pointer is the same. -/
  pointer : d.get Reg.sp = c.get Reg.sp
  /-- The bytes are the same. -/
  bytes : ∀ j < k, d.memory.read (stackSlot sp j) = c.memory.read (stackSlot sp j)

section

variable {r : Registers} {m : Memory} {n : Nat} {a : Addressing}

theorem Fetches.step_jsr (h : Fetches (machine r m n) .jsr a) :
    ∃ pc, (machine r m n).step behaviour =
      (machine { r with sp := (r.sp - 2) &&& 0xFF, pc } (pushedWord m r.sp (r.pc + 2)) (n + 1), none) := by
  have htarget : (fetched (machine r m n) a).address.isSome := by
    rw [fetched, Addressing.isSome_address_resolve]
    exact (Operation.jsr.supplied _ h.mem_opcodes).2.1 rfl
  obtain ⟨addr, haddr⟩ := Option.isSome_iff_exists.1 htarget
  exact ⟨addr &&& 0xFFFF, step_machine_of_jump h (run_jsr_machine r m n ⟨a.mode, _, r.pc⟩ haddr)⟩

theorem Fetches.step_rts (h : Fetches (machine r m n) .rts a) :
    (machine r m n).step behaviour = (machine { r with
      sp := (r.sp + 2) &&& 0xFF
      pc := (pulledWord m r.sp + 1) &&& 0xFFFF } m (n + 1), none) :=
  step_machine_of_jump h (run_rts_machine r m n ⟨a.mode, _, r.pc⟩)

theorem Fetches.step_brk (h : Fetches (machine r m n) .brk a) :
    ∃ r', (machine r m n).step behaviour = (machine r' (pushedInterrupt m r.sp (r.pc + 2) r.p) (n + 1), none) ∧
      r'.sp = (r.sp - 3) &&& 0xFF :=
  ⟨_, step_machine_of_jump h (run_brk_machine r m n ⟨a.mode, _, r.pc⟩), rfl⟩

theorem Fetches.step_rti (h : Fetches (machine r m n) .rti a) :
    (machine r m n).step behaviour = (machine { r with
      sp := (r.sp + 3) &&& 0xFF
      p := pulledStatus (m.read (stackBase + ((r.sp + 1) &&& 0xFF)))
      pc := pulledWord m (r.sp + 1) &&& 0xFFFF } m (n + 1), none) :=
  step_machine_of_jump h (run_rti_machine r m n ⟨a.mode, _, r.pc⟩)

end

/-- A return from a call leads behind the call. -/
theorem Fetches.jsr_returns {c : Cpu} (hc : Reachable c) {a : Addressing} (h : Fetches c .jsr a) :
    ∃ c', c.step behaviour = (c', none) ∧
      ∀ d b, Run c' d → KeepsPushed 2 (c.get Reg.sp) c' d → Fetches d .rts b →
        ∃ d', d.step behaviour = (d', none) ∧ d'.pc = (c.pc + 3) &&& 0xFFFF ∧
          d'.get Reg.sp = c.get Reg.sp := by
  obtain ⟨r, n, hr, heq⟩ := hc.exists_machine
  have hwidth : 9 ≤ c.memory.width := by simp [hc.width]
  generalize c.memory = m at heq hwidth
  subst heq
  obtain ⟨pc, hstep⟩ := h.step_jsr
  obtain ⟨hhigh, hlow⟩ := read_pushedWord hwidth hr.sp (r.pc + 2)
  refine ⟨_, hstep, fun d b hrun hkeeps hrts => ?_⟩
  obtain ⟨s, k, -, heq⟩ := (hc.run_step hstep hrun).exists_machine
  generalize d.memory = m' at heq
  subst heq
  have hsp : s.sp = (r.sp - 2) &&& 0xFF := hkeeps.pointer
  have hword : pulledWord m' s.sp = (r.pc + 2) &&& 0xFFFF := by
    rw [hsp, pulledWord_and_byte]
    exact pulledWord_of_pushed ((hkeeps.bytes 0 (by decide)).trans hhigh) ((hkeeps.bytes 1 (by decide)).trans hlow)
  refine ⟨_, hrts.step_rts, ?_, ?_⟩
  · -- What was pushed is the address of the last byte of the call.
    show (pulledWord m' s.sp + 1) &&& 0xFFFF = (r.pc + 3) &&& 0xFFFF
    rw [hword, Word.and_address_add, UInt64.add_assoc]
    rfl
  · show (s.sp + 2) &&& 0xFF = r.sp
    rw [hsp, Word.and_byte_add, UInt64.sub_add_cancel, Word.and_byte_of_le hr.sp]

/-- A return from an interrupt leads behind the byte that follows the interrupt, and restores the status. -/
theorem Fetches.brk_returns {c : Cpu} (hc : Reachable c) {a : Addressing} (h : Fetches c .brk a) :
    ∃ c', c.step behaviour = (c', none) ∧
      ∀ d b, Run c' d → KeepsPushed 3 (c.get Reg.sp) c' d → Fetches d .rti b →
        ∃ d', d.step behaviour = (d', none) ∧ d'.pc = (c.pc + 2) &&& 0xFFFF ∧
          d'.get Reg.sp = c.get Reg.sp ∧ d'.get Reg.p = c.get Reg.p := by
  obtain ⟨r, n, hr, heq⟩ := hc.exists_machine
  have hwidth : 9 ≤ c.memory.width := by simp [hc.width]
  generalize c.memory = m at heq hwidth
  subst heq
  obtain ⟨r', hstep, hsp'⟩ := h.step_brk
  obtain ⟨hhigh, hlow, hstatus⟩ := read_pushedInterrupt hwidth hr.sp (r.pc + 2) r.p
  refine ⟨_, hstep, fun d b hrun hkeeps hrti => ?_⟩
  obtain ⟨s, k, -, heq⟩ := (hc.run_step hstep hrun).exists_machine
  generalize d.memory = m' at heq
  subst heq
  have hsp : s.sp = (r.sp - 3) &&& 0xFF := hkeeps.pointer.trans hsp'
  -- The status is pulled first, and the address from above it.
  have habove : (s.sp + 1) &&& 0xFF = (r.sp - 2) &&& 0xFF := by
    have hback : r.sp - 3 + 1 = r.sp - 2 := by
      clear * -
      grind
    rw [hsp, Word.and_byte_add, hback]
  have hword : pulledWord m' (s.sp + 1) = (r.pc + 2) &&& 0xFFFF := by
    rw [← pulledWord_and_byte, habove, pulledWord_and_byte]
    exact pulledWord_of_pushed ((hkeeps.bytes 0 (by decide)).trans hhigh) ((hkeeps.bytes 1 (by decide)).trans hlow)
  refine ⟨_, hrti.step_rti, ?_, ?_, ?_⟩
  · show pulledWord m' (s.sp + 1) &&& 0xFFFF = (r.pc + 2) &&& 0xFFFF
    rw [hword, UInt64.and_assoc, UInt64.and_self]
  · show (s.sp + 3) &&& 0xFF = r.sp
    rw [hsp, Word.and_byte_add, UInt64.sub_add_cancel, Word.and_byte_of_le hr.sp]
  · show pulledStatus (m'.read (stackBase + ((s.sp + 1) &&& 0xFF))) = r.p
    rw [habove]
    exact (congrArg pulledStatus ((hkeeps.bytes 2 (by decide)).trans hstatus)).trans (pulledStatus_pushed hr.p)

/-- Calls and interrupts return, whatever the stack pointer: once the stack pointer and the bytes that were
pushed are the same again, the return restores the stack pointer and leads behind the call, or behind the byte
that follows the interrupt, whose status it restores too. -/
theorem calls_return {c : Cpu} (hc : Reachable c) :
    (∀ a, Fetches c .jsr a → ∃ c', c.step behaviour = (c', none) ∧
      ∀ d b, Run c' d → KeepsPushed 2 (c.get Reg.sp) c' d → Fetches d .rts b →
        ∃ d', d.step behaviour = (d', none) ∧ d'.pc = (c.pc + 3) &&& 0xFFFF ∧
          d'.get Reg.sp = c.get Reg.sp) ∧
    (∀ a, Fetches c .brk a → ∃ c', c.step behaviour = (c', none) ∧
      ∀ d b, Run c' d → KeepsPushed 3 (c.get Reg.sp) c' d → Fetches d .rti b →
        ∃ d', d.step behaviour = (d', none) ∧ d'.pc = (c.pc + 2) &&& 0xFFFF ∧
          d'.get Reg.sp = c.get Reg.sp ∧ d'.get Reg.p = c.get Reg.p) :=
  ⟨fun _ h => h.jsr_returns hc, fun _ h => h.brk_returns hc⟩

/-- A call and an interrupt, each after an instruction that clears the stack pointer, and routines that return at
once. -/
def returningMemory : Memory :=
  ((((Memory.empty 16 none).load 0x0200 [0x9A, 0x20, 0x00, 0x03] .program).load 0x0210 [0x9A, 0x00]
    .program).load 0x0300 [0x60, 0x40] .program).load 0xFFFE [0x01, 0x03] .data

/-- A processor at an address of this memory, once the stack pointer is cleared. -/
def returningAt (pc : UInt64) : Cpu := machine { Registers.initial pc with sp := 0, pc } returningMemory 1

theorem reachable_returningAt (entry : UInt64) {pc : UInt64} (hentry : entry ≤ 0xFFFF)
    (hnext : (entry + 1) &&& 0xFFFF = pc) (hopcode : returningMemory.read entry = 0x9A) :
    Reachable (returningAt pc) := by
  subst hnext
  have hmem : (Addressing.imp, returningMemory.read entry) ∈ Operation.txs.opcodes := by
    rw [hopcode]
    decide
  refine reachable_of_run (by decide) hentry hmem (r := { Registers.initial entry with sp := 0 }) ?_
  rw [Operation.run, set_sp_machine, get_x_machine]
  exact congrArg (fun sp => proceed (machine { Registers.initial entry with sp } _ _)) UInt64.zero_and

theorem calls_return_wrapping :
    Reachable (returningAt 0x0201) ∧ Fetches (returningAt 0x0201) .jsr .abs ∧
    (∃ c' d', (returningAt 0x0201).step behaviour = (c', none) ∧ c'.get Reg.sp = 0xFE ∧
      Fetches c' .rts .imp ∧ c'.step behaviour = (d', none) ∧ d'.pc = 0x0204 ∧ d'.get Reg.sp = 0) ∧
    Reachable (returningAt 0x0211) ∧ Fetches (returningAt 0x0211) .brk .imp ∧
    ∃ c' d', (returningAt 0x0211).step behaviour = (c', none) ∧ c'.get Reg.sp = 0xFD ∧
      Fetches c' .rti .imp ∧ c'.step behaviour = (d', none) ∧ d'.pc = 0x0213 ∧ d'.get Reg.sp = 0 ∧
      d'.get Reg.p = 0x24 := by
  have hcall : Reachable (returningAt 0x0201) :=
    reachable_returningAt 0x0200 (by decide) (by decide) (by decide +kernel)
  have hinterrupt : Reachable (returningAt 0x0211) :=
    reachable_returningAt 0x0210 (by decide) (by decide) (by decide +kernel)
  -- Only the bytes at the program counter are evaluated; what the instructions do follows from their normal
  -- form.
  have hopcodes : (returningAt 0x0201).memory.read (returningAt 0x0201).pc = 0x20 ∧
      (returningAt 0x0211).memory.read (returningAt 0x0211).pc = 0x00 ∧
      (fetched (returningAt 0x0201) .abs).address = some 0x0300 := by
    decide +kernel
  have hjsr : Fetches (returningAt 0x0201) .jsr .abs := fetches_of_mem_opcodes (by rw [hopcodes.1]; decide)
  have hbrk : Fetches (returningAt 0x0211) .brk .imp := fetches_of_mem_opcodes (by rw [hopcodes.2.1]; decide)
  refine ⟨hcall, hjsr, ?_, hinterrupt, hbrk, ?_⟩
  · obtain ⟨c', hstep, hreturn⟩ := (calls_return hcall).1 _ hjsr
    have hcalled := step_machine_of_jump hjsr
      (run_jsr_machine _ _ _ ⟨Addressing.abs.mode, _, (returningAt 0x0201).pc⟩ hopcodes.2.2)
    have hstate : c'.get Reg.sp = 0xFE ∧ c'.memory.read c'.pc = 0x60 := by
      rw [(Prod.mk.inj (hstep.symm.trans hcalled)).1]
      decide +kernel
    have hrts : Fetches c' .rts .imp := fetches_of_mem_opcodes (by rw [hstate.2]; decide)
    obtain ⟨d', hd, hpc, hsp⟩ := hreturn c' .imp .refl ⟨rfl, fun _ _ => rfl⟩ hrts
    exact ⟨c', d', hstep, hstate.1, hrts, hd, hpc.trans (by decide +kernel), hsp⟩
  · obtain ⟨c', hstep, hreturn⟩ := (calls_return hinterrupt).2 _ hbrk
    have hinterrupted := step_machine_of_jump hbrk
      (run_brk_machine _ _ _ ⟨Addressing.imp.mode, _, (returningAt 0x0211).pc⟩)
    have hstate : c'.get Reg.sp = 0xFD ∧ c'.memory.read c'.pc = 0x40 := by
      rw [(Prod.mk.inj (hstep.symm.trans hinterrupted)).1]
      decide +kernel
    have hrti : Fetches c' .rti .imp := fetches_of_mem_opcodes (by rw [hstate.2]; decide)
    obtain ⟨d', hd, hpc, hsp, hp⟩ := hreturn c' .imp .refl ⟨rfl, fun _ _ => rfl⟩ hrti
    exact ⟨c', d', hstep, hstate.1, hrti, hd, hpc.trans (by decide +kernel), hsp, hp⟩

end Mos6502

end EightBit
