import Mathlib
import EightBit.Proofs.Machine

/-!
# What a step may change

An instruction of the 6502 writes to memory at the address of its operand or on the stack, and nowhere else,
and only the instructions of the stack move the stack pointer. The addresses and the new stack pointer are told
by the state before the step, so that it does not matter whether the instruction overwrites itself, its
operand or its pointer.

* `Memory.ChangedAt`: a memory that was changed at most at given addresses.
* `Mos6502.Operation.writes`, `Mos6502.Operation.stackPointer`: what an instruction may write to, and what it
  does to the stack pointer.
* `Mos6502.Operation.run_leaves`: the effect of an instruction.
* `Mos6502.step_footprint`: the effect of a step.
-/

namespace EightBit

/-! ## Memory -/

/-- Another memory that has the same marks, and the same bytes everywhere but at given addresses. -/
structure Memory.ChangedAt (addrs : List UInt64) (m m' : Memory) : Prop where
  /-- The width is the same. -/
  width : m'.width = m.width
  /-- The marks are the same. -/
  marks : m'.marks = m.marks
  /-- The bytes are the same at other addresses. -/
  read : ∀ addr, (∀ a ∈ addrs, a &&& m.mask ≠ addr &&& m.mask) → m'.read addr = m.read addr

namespace Memory.ChangedAt

variable {addrs : List UInt64} {m m' : Memory}

theorem refl (addrs : List UInt64) (m : Memory) : ChangedAt addrs m m := ⟨rfl, rfl, fun _ _ => rfl⟩

theorem mask (h : ChangedAt addrs m m') : m'.mask = m.mask := congrArg Word.mask h.width

theorem markAt (h : ChangedAt addrs m m') (addr : UInt64) : m'.markAt addr = m.markAt addr := by
  rw [Memory.markAt, Memory.markAt, h.marks, h.mask]

theorem write (h : ChangedAt addrs m m') (addr : UInt64) (b : UInt8) :
    ChangedAt (addrs ++ [addr]) m (m'.write addr b) := by
  refine ⟨h.width, h.marks, fun other hother => ?_⟩
  rw [List.forall_mem_append] at hother
  rw [read_write, h.mask, if_neg (hother.2 addr List.mem_cons_self), h.read other hother.1]

end Memory.ChangedAt

namespace Mos6502

/-! ## What instructions may change -/

namespace Operation

/-- The addresses that an instruction may write to: that of its operand, or those of the bytes that it
pushes. -/
def writes (sp : UInt64) (operand : Resolved) : Operation → List UInt64
  | sta | stx | sty | inc | dec | asl | lsr | rol | ror => operand.address.toList
  | pha | php => [stackSlot sp 0]
  | jsr => [stackSlot sp 0, stackSlot sp 1]
  | brk => [stackSlot sp 0, stackSlot sp 1, stackSlot sp 2]
  | _ => []

/-- The stack pointer after an instruction. -/
def stackPointer (sp x : UInt64) : Operation → UInt64
  | pha | php => (sp - 1) &&& 0xFF
  | jsr => (sp - 2) &&& 0xFF
  | brk => (sp - 3) &&& 0xFF
  | pla | plp => (sp + 1) &&& 0xFF
  | rts => (sp + 2) &&& 0xFF
  | rti => (sp + 3) &&& 0xFF
  | txs => x
  | _ => sp

end Operation

/-- A state in which memory and the stack pointer are as before. -/
def Quiet (r : Registers) (m : Memory) (n : Nat) (c : Cpu) : Prop := ∃ r', r'.sp = r.sp ∧ c = machine r' m n

/-- An effect without an error after which the stack pointer has a given value and memory has changed at most
at given addresses. -/
def Leaves (m : Memory) (n : Nat) (sp : UInt64) (addrs : List UInt64) (e : Effect) : Prop :=
  ∃ r' m' next, e = ⟨machine r' m' n, .ok next⟩ ∧ r'.sp = sp ∧ m.ChangedAt addrs m'

/-! ## Families of instructions -/

section

variable {r : Registers} {m : Memory} {n : Nat}

theorem quiet_machine (r : Registers) (m : Memory) (n : Nat) : Quiet r m n (machine r m n) := ⟨r, rfl, rfl⟩

namespace Quiet

variable {c : Cpu} {i : Instruction} {addrs : List UInt64}

theorem setFlag (h : Quiet r m n c) (f : Flag) (on : Bool) : Quiet r m n (Mos6502.setFlag c f on) := by
  obtain ⟨r', hsp, rfl⟩ := h
  exact ⟨r'.setFlag f on, hsp, setFlag_machine r' m n f on⟩

theorem setZN (h : Quiet r m n c) (result : UInt64) : Quiet r m n (Mos6502.setZN c result) :=
  (h.setFlag .zero _).setFlag .negative _

theorem set (h : Quiet r m n c) {reg : Text} (hreg : reg ∈ [Reg.a, Reg.x, Reg.y]) (v : UInt64) :
    Quiet r m n (c.set reg v) := by
  obtain ⟨r', hsp, rfl⟩ := h
  simp only [List.mem_cons, List.not_mem_nil, or_false] at hreg
  rcases hreg with rfl | rfl | rfl
  · exact ⟨{ r' with a := v &&& 0xFF }, hsp, set_a_machine r' m n v⟩
  · exact ⟨{ r' with x := v &&& 0xFF }, hsp, set_x_machine r' m n v⟩
  · exact ⟨{ r' with y := v &&& 0xFF }, hsp, set_y_machine r' m n v⟩

theorem setZNReg (h : Quiet r m n c) {reg : Text} (hreg : reg ∈ [Reg.a, Reg.x, Reg.y]) (v : UInt64) :
    Quiet r m n (Mos6502.setZNReg c reg v) :=
  (h.set hreg v).setZN _

theorem proceed (h : Quiet r m n c) : Leaves m n r.sp addrs (proceed c) := by
  obtain ⟨r', hsp, rfl⟩ := h
  exact ⟨r', m, none, rfl, hsp, .refl addrs m⟩

theorem jump (h : Quiet r m n c) (addr : UInt64) : Leaves m n r.sp addrs (jump c addr) := by
  obtain ⟨r', hsp, rfl⟩ := h
  exact ⟨r', m, _, rfl, hsp, .refl addrs m⟩

theorem store (h : Quiet r m n c) (ht : i.operand.address.isSome) (v : UInt64) :
    Leaves m n r.sp i.operand.address.toList (i.store c v) := by
  obtain ⟨r', hsp, rfl⟩ := h
  obtain ⟨addr, haddr⟩ := Option.isSome_iff_exists.1 ht
  rw [Instruction.store, Instruction.withTarget, haddr]
  exact ⟨r', _, none, rfl, hsp, (Memory.ChangedAt.refl [] m).write addr v.toUInt8⟩

theorem writeBack (h : Quiet r m n c) (hback : i.mode = Addressing.acc.mode ∨ i.operand.address.isSome)
    (v : UInt64) : Leaves m n r.sp i.operand.address.toList (i.writeBack c v) := by
  unfold Instruction.writeBack
  split_ifs with hacc
  · exact (h.set (by simp) v).proceed
  · exact h.store (hback.resolve_left hacc) v

theorem transfer (h : Quiet r m n c) (source : Text) {target : Text}
    (htarget : target ∈ [Reg.a, Reg.x, Reg.y]) : Leaves m n r.sp addrs (transfer c source target) :=
  (h.setZNReg htarget _).proceed

theorem increment (h : Quiet r m n c) {reg : Text} (hreg : reg ∈ [Reg.a, Reg.x, Reg.y]) (delta : UInt64) :
    Leaves m n r.sp addrs (increment c reg delta) :=
  (h.setZNReg hreg _).proceed

end Quiet

namespace Instruction

variable {i : Instruction} {c : Cpu} {sp : UInt64} {addrs : List UInt64}

theorem leaves_withValue (hv : i.operand.value.isSome) {f : UInt64 → Effect}
    (hf : ∀ v, Leaves m n sp addrs (f v)) : Leaves m n sp addrs (i.withValue c f) := by
  obtain ⟨v, hv⟩ := Option.isSome_iff_exists.1 hv
  rw [withValue, hv]
  exact hf v

theorem leaves_withTarget (ht : i.operand.address.isSome) {f : UInt64 → Effect}
    (hf : ∀ addr, Leaves m n sp addrs (f addr)) : Leaves m n sp addrs (i.withTarget c f) := by
  obtain ⟨addr, ht⟩ := Option.isSome_iff_exists.1 ht
  rw [withTarget, ht]
  exact hf addr

theorem leaves_load (h : Quiet r m n c) (hv : i.operand.value.isSome) {reg : Text}
    (hreg : reg ∈ [Reg.a, Reg.x, Reg.y]) : Leaves m n r.sp addrs (i.load c reg) :=
  leaves_withValue hv fun v => (h.setZNReg hreg v).proceed

theorem leaves_logic (h : Quiet r m n c) (hv : i.operand.value.isSome) (f : UInt64 → UInt64 → UInt64) :
    Leaves m n r.sp addrs (i.logic c f) :=
  leaves_withValue hv fun _ => (h.setZNReg (by simp) _).proceed

theorem leaves_compare (h : Quiet r m n c) (hv : i.operand.value.isSome) (reg : Text) :
    Leaves m n r.sp addrs (i.compare c reg) :=
  leaves_withValue hv fun _ => ((h.setFlag .carry _).setZN _).proceed

theorem quiet_addTo (h : Quiet r m n c) (v : UInt64) : Quiet r m n (addTo c v) :=
  ((h.setFlag .carry _).setFlag .overflow _).setZNReg (by simp) _

theorem leaves_shift (h : Quiet r m n c) (hv : i.operand.value.isSome)
    (hback : i.mode = Addressing.acc.mode ∨ i.operand.address.isSome)
    (f : UInt64 → Bool → UInt64 × Bool) : Leaves m n r.sp i.operand.address.toList (i.shift c f) :=
  leaves_withValue hv fun _ => ((h.setFlag .carry _).setZN _).writeBack hback _

theorem leaves_step (h : Quiet r m n c) (hv : i.operand.value.isSome) (ht : i.operand.address.isSome)
    (delta : UInt64) : Leaves m n r.sp i.operand.address.toList (i.step c delta) :=
  leaves_withValue hv fun _ => (h.setZN _).store ht _

theorem leaves_branch (h : Quiet r m n c) (ht : i.operand.address.isSome) (taken : Bool) :
    Leaves m n r.sp addrs (i.branch c taken) := by
  unfold branch
  split_ifs
  · exact leaves_withTarget ht h.jump
  · exact h.jump _

end Instruction

/-! ## The stack -/

theorem changedAt_push (hr : r.Valid) (b : UInt8) :
    m.ChangedAt [stackSlot r.sp 0] (m.write (stackBase + r.sp) b) := by
  rw [stackSlot_zero hr.sp]
  exact (Memory.ChangedAt.refl [] m).write _ b

theorem changedAt_pushedWord (hr : r.Valid) (v : UInt64) :
    m.ChangedAt [stackSlot r.sp 0, stackSlot r.sp 1] (pushedWord m r.sp v) :=
  (changedAt_push hr _).write _ _

theorem changedAt_pushedInterrupt (hr : r.Valid) (v : UInt64) :
    m.ChangedAt [stackSlot r.sp 0, stackSlot r.sp 1, stackSlot r.sp 2] (pushedInterrupt m r.sp v r.p) :=
  (changedAt_pushedWord hr v).write _ _

/-! ## Instructions -/

/-- An instruction writes only where it may, and moves the stack pointer as it should. -/
theorem Operation.run_leaves (hr : r.Valid) {i : Instruction} (op : Operation)
    (hv : op.needsValue → i.operand.value.isSome) (ht : op.needsTarget → i.operand.address.isSome)
    (hback : op.writesBack → i.mode = Addressing.acc.mode ∨ i.operand.address.isSome) :
    Leaves m n (op.stackPointer r.sp r.x) (op.writes r.sp i.operand) (op.run (machine r m n) i) := by
  have hquiet := quiet_machine r m n
  cases op with
  | adc | sbc =>
    exact i.leaves_withValue (hv rfl) fun v => (Instruction.quiet_addTo hquiet _).proceed
  | and | ora | eor => exact i.leaves_logic hquiet (hv rfl) _
  | asl | lsr | rol | ror =>
    rw [run]
    exact i.leaves_shift hquiet (hv rfl) (hback rfl) _
  | bit =>
    exact i.leaves_withValue (hv rfl) fun _ =>
      (((hquiet.setFlag .zero _).setFlag .negative _).setFlag .overflow _).proceed
  | cmp | cpx | cpy => exact i.leaves_compare hquiet (hv rfl) _
  | lda | ldx | ldy => exact i.leaves_load hquiet (hv rfl) (by simp)
  | bcc | bcs | bne | beq | bpl | bmi | bvc | bvs => exact i.leaves_branch hquiet (ht rfl) _
  | clc | cld | cli | clv | sec | sed | sei => exact (hquiet.setFlag _ _).proceed
  | dec | inc => exact i.leaves_step hquiet (hv rfl) (ht rfl) _
  | dex | dey | inx | iny => exact hquiet.increment (by simp) _
  | tax | tay | tsx | txa | tya => exact hquiet.transfer _ (by simp)
  | sta | stx | sty => exact hquiet.store (ht rfl) _
  | nop => exact hquiet.proceed
  | jmp => exact i.leaves_withTarget (ht rfl) hquiet.jump
  | jsr =>
    obtain ⟨addr, haddr⟩ := Option.isSome_iff_exists.1 (ht rfl)
    rw [run_jsr_machine r m n i haddr]
    exact ⟨_, _, _, rfl, rfl, changedAt_pushedWord hr _⟩
  | brk =>
    rw [run_brk_machine]
    exact ⟨_, _, _, rfl, rfl, changedAt_pushedInterrupt hr _⟩
  | rts =>
    rw [run_rts_machine]
    exact ⟨_, _, _, rfl, rfl, .refl _ m⟩
  | rti =>
    rw [run_rti_machine]
    exact ⟨_, _, _, rfl, rfl, .refl _ m⟩
  | pha =>
    rw [Operation.run, push_machine]
    exact ⟨_, _, _, rfl, rfl, changedAt_push hr _⟩
  | php =>
    rw [Operation.run, pushStatus_machine]
    exact ⟨_, _, _, rfl, rfl, changedAt_push hr _⟩
  | pla =>
    rw [Operation.run, pull_machine]
    exact ((quiet_machine { r with sp := (r.sp + 1) &&& 0xFF } m n).setZNReg (by simp) _).proceed
  | plp =>
    rw [Operation.run, pullStatus_machine]
    exact ⟨_, _, _, rfl, rfl, .refl _ m⟩
  | txs =>
    rw [Operation.run, set_sp_machine, get_x_machine, Word.and_byte_of_le hr.x]
    exact ⟨_, _, _, rfl, rfl, .refl _ m⟩

end

/-- What an instruction may write to are addresses of 16 bits. -/
theorem Operation.le_of_mem_writes {op : Operation} {a : Addressing} {b : UInt8} (h : (a, b) ∈ op.opcodes)
    (sp : UInt64) (c : Cpu) (raw pc : UInt64) :
    ∀ w ∈ op.writes sp (a.resolve c raw pc), w ≤ 0xFFFF := by
  intro w hw
  have hslot : ∀ k, stackSlot sp k ≤ 0xFFFF := fun k => UInt64.le_trans (stackSlot_le sp k) (by decide)
  -- Only a jump has an operand whose address is not cut to 16 bits.
  have hind : a = .ind → op = .jmp := by
    have hall : ∀ x ∈ op.opcodes, x.1 = .ind → op = .jmp := by cases op <;> decide
    exact hall (a, b) h
  have haddress : op ≠ .jmp → w ∈ (a.resolve c raw pc).address.toList → w ≤ 0xFFFF := by
    intro hop hmem
    cases a with
    | imp | acc | imm => simp [Addressing.resolve] at hmem
    | ind => exact absurd (hind rfl) hop
    | _ =>
      obtain rfl := List.mem_singleton.1 hmem
      exact UInt64.and_le_right
  cases op with
  | sta | stx | sty | inc | dec | asl | lsr | rol | ror => exact haddress (by simp) hw
  | pha | php | jsr | brk =>
    simp only [writes, List.mem_cons, List.not_mem_nil, or_false] at hw
    grind
  | _ => cases hw

/-! ## Steps -/

/-- The effect of the next instruction of a state. -/
theorem Fetches.step {r : Registers} {m : Memory} {n : Nat} (hr : r.Valid) {op : Operation} {a : Addressing}
    (h : Fetches (machine r m n) op a) :
    ∃ r' m', (machine r m n).step behaviour = (machine r' m' (n + 1), none) ∧
      r'.sp = op.stackPointer r.sp r.x ∧ m.ChangedAt (op.writes r.sp (fetched (machine r m n) a)) m' := by
  obtain ⟨hvalue, htarget, hback⟩ := op.supplied _ h.mem_opcodes
  have hleaves := op.run_leaves (m := m) (n := n) hr (i := ⟨a.mode, fetched (machine r m n) a, r.pc⟩)
    (fun hneeds => by rw [fetched, Addressing.isSome_value_resolve]; exact hvalue hneeds)
    (fun hneeds => by rw [fetched, Addressing.isSome_address_resolve]; exact htarget hneeds)
    (fun hneeds => by
      rw [fetched, Addressing.isSome_address_resolve]
      exact (hback hneeds).imp_left (congrArg Addressing.mode))
  obtain ⟨r', m', next, hrun, hsp, hchanged⟩ := hleaves
  exact ⟨_, m', step_machine h hrun, hsp, hchanged⟩

/-- A step that succeeds changes no mark, memory at most where its instruction says, and the stack pointer
exactly as its instruction says. -/
theorem step_footprint {c c' : Cpu} (hc : Reachable c) (hstep : c.step behaviour = (c', none)) :
    ∃ op a, Fetches c op a ∧
      (∀ addr, c'.memory.markAt addr = c.memory.markAt addr) ∧
      (∀ addr, addr &&& 0xFFFF ∉
          op.writes (c.get Reg.sp) (behaviour.resolve c a.mode (c.operandWord c.pc a.mode) c.pc) →
        c'.memory.read addr = c.memory.read addr) ∧
      c'.get Reg.sp = op.stackPointer (c.get Reg.sp) (c.get Reg.x) := by
  obtain ⟨op, a, hfetches⟩ : ∃ op a, Fetches c op a := by
    obtain ⟨n, hsound⟩ := hc.sound
    cases hdecode : table.decode? (c.memory.read c.pc) with
    | some e =>
      obtain ⟨op, a, -, rfl⟩ := exists_of_decode? hdecode
      exact ⟨op, a, hdecode⟩
    | none =>
      rw [hsound.step_of_unknown hdecode] at hstep
      cases hstep
  refine ⟨op, a, hfetches, ?_⟩
  obtain ⟨r, n, hr, heq⟩ := hc.exists_machine
  have hmask : c.memory.mask = 0xFFFF := by rw [Memory.mask, hc.width, Word.mask_sixteen]
  generalize c.memory = m at heq hmask
  subst heq
  obtain ⟨r', m', hstep', hsp, hchanged⟩ := hfetches.step hr
  obtain rfl := (Prod.mk.inj (hstep.symm.trans hstep')).1
  refine ⟨hchanged.markAt, fun addr hfree => hchanged.read addr fun w hw heq => hfree ?_, hsp⟩
  have hle := Operation.le_of_mem_writes hfetches.mem_opcodes r.sp (machine r m n) _ _ w hw
  rw [hmask] at heq
  show addr &&& 0xFFFF ∈ op.writes r.sp (resolve _ a.mode ((machine r m n).operandWord _ a.mode) _)
  rw [resolve_fetched, ← heq, Word.and_address_of_le hle]
  exact hw

/-- A processor at an instruction that stores a byte through a pointer to its own operand. -/
def selfStoring : Cpu :=
  ({ Cpu.ofArchitecture architecture with
    memory := ((Memory.empty 16 none).load 0x0200 [0x91, 0x10] .program).load 0x0010
      [0x01, 0x02] .data }.reset behaviour 0x0200).1

theorem step_footprint_selfStoring :
    Reachable selfStoring ∧ Fetches selfStoring .sta .idy ∧
    ∃ c', selfStoring.step behaviour = (c', none) ∧ c'.get Reg.sp = 0xFD ∧
      ∀ addr, addr &&& 0xFFFF ≠ 0x0201 → c'.memory.read addr = selfStoring.memory.read addr := by
  have hcheck : selfStoring.memory.read selfStoring.pc = 0x91 ∧ selfStoring.get Reg.sp = 0xFD ∧
      (Addressing.idy.resolve selfStoring (selfStoring.operandWord selfStoring.pc Addressing.idy.mode)
        selfStoring.pc).address = some 0x0201 := by
    decide +kernel
  obtain ⟨hopcode, hsp, haddress⟩ := hcheck
  have hreachable : Reachable selfStoring := ⟨_, 0x0200, ⟨rfl, rfl, rfl, rfl⟩, .refl⟩
  have hfetches : Fetches selfStoring .sta .idy := fetches_of_mem_opcodes (by rw [hopcode]; decide)
  obtain ⟨n, hsound⟩ := hreachable.sound
  -- The step itself is not evaluated: that it succeeds is known of every opcode in the table.
  obtain ⟨c', hstep, -⟩ := hsound.step_of_known hfetches
  obtain ⟨op, a, hop, -, hread, hpointer⟩ := step_footprint hreachable hstep
  obtain ⟨rfl, rfl⟩ := hfetches.unique hop
  rw [hsp] at hpointer
  refine ⟨hreachable, hfetches, c', hstep, hpointer, fun addr haddr => hread addr ?_⟩
  show addr &&& 0xFFFF ∉ (resolve selfStoring Addressing.idy.mode
    (selfStoring.operandWord selfStoring.pc Addressing.idy.mode) selfStoring.pc).address.toList
  rw [resolve_fetched, fetched, haddress, Option.toList_some, List.mem_singleton]
  exact haddr

end Mos6502

end EightBit
