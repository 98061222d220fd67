import Mathlib
import EightBit.Emulator
import EightBit.Proofs.Confinement
import EightBit.Proofs.Encodable
import EightBit.Proofs.Execution
import EightBit.Proofs.Overlay

/-!
# Loading programs

A program is loaded in two ways. Its binary is put at its lowest address, and a reset of an emulator copies
the bytes of its source map one by one. Both reproduce the memory that was assembled, although the addresses
of a program may exceed those of the memory. A reset does so whatever was done with the emulator before: all
that it needs are the registers and the width of the memory, which nothing that is executed can change.

* `Memory.Written`: what a memory becomes by writing to it.
* `Mos6502.written_step`: an instruction of the 6502 only writes to memory.
* `Program.read_load_binary`, `Program.sameAt_loadProgram`: the two ways of loading.
* `Mos6502.Intact`: emulators that can be reset; `Mos6502.History.intact` shows it along every history.
* `Mos6502.reset_reproduces`: a loaded program is the one that was assembled.
-/

namespace EightBit

namespace Memory

/-! ## Writing to memory -/

/-- What a memory becomes when bytes are written, marks are set or everything is cleared. -/
inductive Written (m : Memory) : Memory → Prop
  | refl : Written m m
  | write {m' : Memory} (h : Written m m') (addr : UInt64) (b : UInt8) : Written m (m'.write addr b)
  | setMark {m' : Memory} (h : Written m m') (addr : UInt64) (mark : Mark) :
    Written m (m'.setMark addr mark)
  | clear {m' : Memory} (h : Written m m') : Written m m'.clear

theorem Written.width {m m' : Memory} (h : m.Written m') : m'.width = m.width := by
  induction h with
  | refl => rfl
  | write _ _ _ ih | setMark _ _ _ ih | clear _ ih => exact ih

/-- The byte and the mark at an address are the same in two memories. -/
structure SameAt (m m' : Memory) (addr : UInt64) : Prop where
  /-- The byte is the same. -/
  byte : m.read addr = m'.read addr
  /-- The mark is the same. -/
  mark : m.markAt addr = m'.markAt addr

/-- Addresses that are the same to a memory have the same byte and the same mark. -/
theorem read_congr (m : Memory) {addr other : UInt64} (h : addr &&& m.mask = other &&& m.mask) :
    m.read addr = m.read other ∧ m.markAt addr = m.markAt other := by
  rw [read, read, markAt, markAt, h]
  exact ⟨rfl, rfl⟩

theorem read_clear (m : Memory) (addr : UInt64) : m.clear.read addr = 0 := by
  simp [read, clear]

theorem markAt_clear (m : Memory) (addr : UInt64) : m.clear.markAt addr = .unused := by
  simp [markAt, clear]

/-- The byte and the mark of `source` at an address, put at the same address of `m`. -/
def copyAt (source m : Memory) (addr : UInt64) : Memory :=
  (m.write addr (source.read addr)).setMark addr (source.markAt addr)

/-- A copy makes two memories of one width agree on the address that is copied, and keeps every agreement
that there was. -/
theorem SameAt.copyAt {source m : Memory} (hmask : m.mask = source.mask) {addr other : UInt64}
    (h : addr &&& source.mask = other &&& source.mask ∨ m.SameAt source other) :
    (source.copyAt m addr).SameAt source other := by
  have hbyte : (source.copyAt m addr).read other =
      if addr &&& source.mask = other &&& source.mask then source.read addr else m.read other := by
    rw [Memory.copyAt, read_setMark, read_write, hmask]
  have hmark : (source.copyAt m addr).markAt other =
      if addr &&& source.mask = other &&& source.mask then source.markAt addr else m.markAt other := by
    rw [Memory.copyAt, markAt_setMark, mask_write, markAt_write, hmask]
  by_cases hsame : addr &&& source.mask = other &&& source.mask
  · rw [if_pos hsame] at hbyte hmark
    obtain ⟨hread, hmarks⟩ := source.read_congr hsame
    exact ⟨hbyte.trans hread, hmark.trans hmarks⟩
  · rw [if_neg hsame] at hbyte hmark
    have hkept := h.resolve_left hsame
    exact ⟨hbyte.trans hkept.byte, hmark.trans hkept.mark⟩

/-- Copies of several addresses, in whatever order, make two memories agree on all of them. -/
theorem SameAt.foldl_copyAt {source m : Memory} (hmask : m.mask = source.mask) {addrs : List UInt64}
    {other : UInt64}
    (h : (∃ addr ∈ addrs, addr &&& source.mask = other &&& source.mask) ∨ m.SameAt source other) :
    (addrs.foldl source.copyAt m).SameAt source other := by
  induction addrs generalizing m with
  | nil => exact h.resolve_left (by simp)
  | cons addr rest ih =>
    refine ih hmask ?_
    rcases h with ⟨k, hk, hsame⟩ | hkept
    · rcases List.mem_cons.1 hk with rfl | hk
      · exact .inr (SameAt.copyAt hmask (.inl hsame))
      · exact .inl ⟨k, hk, hsame⟩
    · exact .inr (SameAt.copyAt hmask (.inr hkept))

theorem written_foldl_copyAt {source m m' : Memory} (h : m.Written m') (addrs : List UInt64) :
    m.Written (addrs.foldl source.copyAt m') := by
  induction addrs generalizing m' with
  | nil => exact h
  | cons addr rest ih => exact ih ((h.write _ _).setMark _ _)

/-- What stands in a slice was read from memory. -/
theorem read_of_getElem?_slice {m : Memory} {start stop : UInt64} {n : Nat} {b : UInt8}
    (h : (m.slice start stop)[n]? = some b) : b = m.read (start + n.toUInt64) := by
  unfold slice at h
  split_ifs at h with hlt
  · have hn : n < (stop - start).toNat := by
      simpa using (List.getElem?_eq_some_iff.1 h).1
    rw [getElem?_readBytes _ _ hn] at h
    exact (Option.some.inj h).symm
  · simp at h

/-- An address between the bounds of a slice has a place in it. -/
theorem exists_place_of_slice (m : Memory) {start stop addr : UInt64} (hstart : start ≤ addr)
    (hstop : addr < stop) : ∃ n < (m.slice start stop).length, start + n.toUInt64 = addr := by
  have hlt : start < stop := UInt64.lt_of_le_of_lt hstart hstop
  rw [UInt64.le_iff_toNat_le] at hstart
  rw [UInt64.lt_iff_toNat_lt] at hstop
  refine ⟨addr.toNat - start.toNat, ?_, ?_⟩
  · rw [slice, if_pos hlt, length_readBytes, UInt64.toNat_sub_of_le _ _ (UInt64.le_of_lt hlt)]
    omega
  · have hword := addr.toNat_lt
    rw [← UInt64.toNat_inj, UInt64.toNat_add, Word.toNat_toUInt64 (by omega), Nat.mod_eq_of_lt (by omega)]
    omega

end Memory

namespace Program

/-! ## The two ways of loading -/

variable {p : Program} {blank : Memory} {leading : List Emission}

/-- What no row covers is as it was before the program was assembled. -/
theorem IsOverlay.sameAt_of_not_covered (h : p.IsOverlay blank leading) {addr : UInt64}
    (hrows : ∀ r ∈ p.rows, ¬ r.covers blank.mask addr) : p.memory.SameAt blank addr := by
  have huncovered : ∀ e ∈ leading.reverse, e.row.byteOn? blank.mask addr = none := by
    intro e he
    have hrow := hrows e.row (h.rows ▸ List.mem_map_of_mem (List.mem_reverse.1 he))
    rwa [Row.covers, Option.isSome_iff_ne_none, not_not] at hrow
  have hbytes : (leading.reverse.findSome? fun e => e.row.byteOn? blank.mask addr) = none :=
    List.findSome?_eq_none_iff.2 huncovered
  have hmarks : (leading.reverse.find? fun e => e.row.covers blank.mask addr) = none := by
    refine List.find?_eq_none.2 fun e he => ?_
    rw [Row.covers, huncovered e he]
    simp
  exact ⟨by rw [h.bytes, hbytes]; rfl, by rw [h.marks, hmarks]; rfl⟩

/-- A cleared memory agrees with a program wherever no row of the program covers it, if the program was
assembled into an empty memory. -/
theorem IsOverlay.sameAt_clear (h : p.IsOverlay blank leading)
    (hblank : ∀ addr, blank.read addr = 0 ∧ blank.markAt addr = .unused) (m : Memory) {addr : UInt64}
    (hrows : ∀ r ∈ p.rows, ¬ r.covers blank.mask addr) : m.clear.SameAt p.memory addr := by
  have hsame := h.sameAt_of_not_covered hrows
  exact ⟨by rw [hsame.byte, (hblank addr).1, Memory.read_clear],
    by rw [hsame.mark, (hblank addr).2, Memory.markAt_clear]⟩

/-- An emulator loads a program by copies at the addresses of its source map. -/
theorem loadProgram_eq (m : Memory) (p : Program) :
    Emulator.loadProgram m p = p.sourceMap.keys.foldl p.memory.copyAt m.clear := rfl

theorem written_loadProgram (m : Memory) (p : Program) : m.Written (Emulator.loadProgram m p) := by
  rw [loadProgram_eq]
  exact Memory.written_foldl_copyAt (.clear .refl) _

/-- Copies at the addresses of the source map reproduce the memory of a program. -/
theorem sameAt_loadProgram (h : p.IsOverlay blank leading)
    (hblank : ∀ addr, blank.read addr = 0 ∧ blank.markAt addr = .unused)
    (hmask : p.memory.mask = blank.mask) {m : Memory} (hwidth : m.mask = p.memory.mask) (addr : UInt64) :
    (Emulator.loadProgram m p).SameAt p.memory addr := by
  have hclear : m.clear.mask = p.memory.mask := hwidth
  rw [loadProgram_eq]
  refine Memory.SameAt.foldl_copyAt hclear ?_
  by_cases hcovered : ∃ r ∈ p.rows, r.covers blank.mask addr
  · -- The byte of a row that falls on the address has a key, which may be longer than the address.
    obtain ⟨r, hr, hcovers⟩ := hcovered
    obtain ⟨n, hn, hsame⟩ := (r.covers_iff blank.mask addr).1 hcovers
    have hkey : r.address + n.toUInt64 ∈ p.sourceMap := (h.keys _).2 ⟨r, hr, n, hn, rfl⟩
    exact .inl ⟨_, Std.TreeMap.mem_keys.2 hkey, hmask ▸ hsame⟩
  · exact .inr (h.sameAt_clear hblank m fun r hr hcovers => hcovered ⟨r, hr, hcovers⟩)

/-- The binary of a program, put at its lowest address, reproduces its bytes. -/
theorem read_load_binary (h : p.IsOverlay blank leading)
    (hblank : ∀ addr, blank.read addr = 0 ∧ blank.markAt addr = .unused)
    (hmask : p.memory.mask = blank.mask) (hbounds : (p.start, p.stop) = bounds p.rows)
    (hfit : ∀ r ∈ p.rows, r.address.toNat + r.bytes.length < 2 ^ 64) {m : Memory}
    (hwidth : m.mask = p.memory.mask) (mark : Mark) (addr : UInt64) :
    (m.clear.load p.start p.binary mark).read addr = p.memory.read addr := by
  have hclear : m.clear.mask = p.memory.mask := hwidth
  rw [Memory.read_load, hclear]
  cases hbyte : byteOn? p.memory.mask addr p.start p.binary with
  | some b =>
    -- What counts at the address was read where addresses are the same to the memory.
    obtain ⟨n, hn, hsame, -⟩ := (byteOn?_eq_some_iff _ _ _ _ _).1 hbyte
    rw [Option.getD_some, Memory.read_of_getElem?_slice hn]
    exact (p.memory.read_congr hsame).1
  | none =>
    rw [Option.getD_none]
    refine (h.sameAt_clear hblank m fun r hr hcovers => ?_).byte
    -- A row that covers the address stands between the bounds, so that it is part of the binary.
    obtain ⟨n, hn, hsame⟩ := (r.covers_iff blank.mask addr).1 hcovers
    obtain ⟨-, hlower, -, hupper⟩ := bounds_spec p.rows (List.ne_nil_of_mem hr)
    rw [← hbounds] at hlower hupper
    dsimp only at hlower hupper
    have hplace := toNat_add_of_fit (hfit r hr) hn.le
    have hend : r.stop.toNat = r.address.toNat + r.bytes.length := toNat_add_of_fit (hfit r hr) le_rfl
    have hfirst : p.start ≤ r.address + n.toUInt64 := by
      have hle := UInt64.le_iff_toNat_le.1 (hlower r hr)
      rw [UInt64.le_iff_toNat_le, hplace]
      exact Nat.le_trans hle (Nat.le_add_right _ _)
    have hlast : r.address + n.toUInt64 < p.stop := by
      have hle := UInt64.le_iff_toNat_le.1 (hupper r hr)
      rw [UInt64.lt_iff_toNat_lt, hplace]
      omega
    obtain ⟨k, hk, hfound⟩ := p.memory.exists_place_of_slice hfirst hlast
    have hsome := (isSome_byteOn?_iff p.memory.mask addr p.start p.binary).2
      ⟨k, hk, by rw [hfound, hmask, hsame]⟩
    rw [hbyte] at hsome
    cases hsome

end Program

namespace Mos6502

/-! ## What instructions do to memory -/

/-- A step of the processor only writes to memory, whatever becomes of it. -/
theorem written_step {m : Memory} {c : Cpu} (h : m.Written c.memory) :
    m.Written (c.step behaviour).1.memory := by
  have hstable : Stable fun c => m.Written c.memory := ⟨fun h _ => h, fun h => h.write⟩
  obtain ⟨err, fault, hstep⟩ | ⟨e, hstep⟩ := c.step_cases behaviour
  · rw [hstep]
    exact h
  · have hexecute := hstable.execute h e (resolve c e.mode (c.operandWord c.pc e.mode) c.pc) c.pc
    rw [hstep, Cpu.perform]
    dsimp only
    split
    · exact hexecute
    · exact hexecute

end Mos6502

namespace Emulator

/-! ## What emulators do to the processor -/

section

variable (emu : Emulator) (line : Unit → Option Text)

@[simp] theorem cpu_tell : (emu.tell line).cpu = emu.cpu := by
  unfold tell
  split <;> rfl

@[simp] theorem behaviour_tell : (emu.tell line).behaviour = emu.behaviour := by
  unfold tell
  split <;> rfl

end

/-- A tick leaves the processor as it is or is one step of it. -/
theorem tick_cases (emu : Emulator) : emu.tick.1.behaviour = emu.behaviour ∧
    (emu.tick.1.cpu = emu.cpu ∨ emu.tick.1.cpu = (emu.cpu.step emu.behaviour).1) := by
  unfold tick
  split_ifs
  · exact ⟨rfl, .inl rfl⟩
  · cases hstep : emu.cpu.step emu.behaviour with
    | mk cpu err =>
      cases err <;> simp [hstep]

/-- What every tick keeps is kept by a run. -/
theorem resume_induction {P : Emulator → Prop} (htick : ∀ emu, P emu → P emu.tick.1) (n : Nat)
    (isFirst : Bool) {emu : Emulator} (h : P emu) : P (emu.resume isFirst n).1 := by
  induction n generalizing isFirst emu with
  | zero => exact h
  | succ n ih =>
    have hnext := htick emu h
    unfold resume
    split_ifs
    · exact h
    · split
      next emu' stop hstop => rwa [hstop] at hnext
      next emu' hgo =>
        rw [hgo] at hnext
        exact ih false hnext

theorem run_induction {P : Emulator → Prop} (htick : ∀ emu, P emu → P emu.tick.1) (limit : Nat)
    {emu : Emulator} (h : P emu) : P (emu.run limit).1 := by
  have hresume := resume_induction htick limit true h
  unfold run
  split
  next emu' stop hstop => rwa [hstop] at hresume
  next emu' hgo => rwa [hgo] at hresume

/-- A reset loads the program and resets the processor. -/
theorem reset_of_program {emu : Emulator} {p : Program} (hprogram : emu.program = some p) {c : Cpu}
    (hreset : Cpu.reset emu.behaviour { emu.cpu with memory := loadProgram emu.cpu.memory p } p.entry =
      (c, none)) :
    ∃ emu', emu.reset = (emu', none) ∧ emu'.behaviour = emu.behaviour ∧ emu'.cpu = c := by
  unfold reset
  rw [hprogram]
  simp only [cpu_tell, behaviour_tell, hreset]
  exact ⟨_, rfl, by simp⟩

end Emulator

namespace Mos6502

/-! ## Emulators of the 6502 -/

/-- A 6502 with its own registers and memory that was not stopped. -/
structure IsOwn (c : Cpu) : Prop where
  /-- It is a 6502. -/
  arch : c.arch = architecture
  /-- No register was ever missing. -/
  fault : c.fault = none
  /-- The registers are its own. -/
  registers : c.registers.map Register.definition = registers
  /-- The memory has an address for every value of the program counter. -/
  width : c.memory.width = 16

namespace IsOwn

variable {c : Cpu}

theorem step (h : IsOwn c) : IsOwn (c.step behaviour).1 := by
  obtain ⟨harch, hfault, hregisters⟩ := own_step h.arch h.fault h.registers
  exact ⟨harch, hfault, hregisters, (written_step .refl).width.trans h.width⟩

theorem withMemory (h : IsOwn c) {m : Memory} (hm : c.memory.Written m) :
    IsOwn { c with memory := m } :=
  ⟨h.arch, h.fault, h.registers, hm.width.trans h.width⟩

theorem set (h : IsOwn c) (reg : Text) (v : UInt64) : IsOwn (c.set reg v) := by
  refine ⟨h.arch, h.fault, ?_, h.width⟩
  exact (RegisterFile.definitions_updateWhere _ (f := (·.set v)) (fun _ => rfl) _).trans h.registers

theorem reset (h : IsOwn c) (entry : UInt64) :
    IsOwn { c with registers := (Registers.initial entry).file, steps := 0, ready := true } :=
  ⟨h.arch, h.fault, rfl, h.width⟩

end IsOwn

/-- An emulator of the 6502 that can be reset. -/
structure Intact (emu : Emulator) : Prop where
  /-- It does what a 6502 does. -/
  behaviour : emu.behaviour = behaviour
  /-- The processor has what it needs. -/
  cpu : IsOwn emu.cpu

namespace Intact

variable {emu : Emulator}

theorem tick (h : Intact emu) : Intact emu.tick.1 := by
  obtain ⟨hbehaviour, hcpu⟩ := emu.tick_cases
  refine ⟨hbehaviour.trans h.behaviour, ?_⟩
  rcases hcpu with hcpu | hcpu
  · exact hcpu ▸ h.cpu
  · rw [hcpu, h.behaviour]
    exact h.cpu.step

/-- A reset succeeds and loads the program. -/
theorem reset_of_program (h : Intact emu) {p : Program} (hprogram : emu.program = some p) :
    ∃ emu', emu.reset = (emu', none) ∧ Intact emu' ∧
      emu'.cpu.memory = Emulator.loadProgram emu.cpu.memory p ∧
      emu'.cpu.registers = (Registers.initial p.entry).file ∧ emu'.cpu.steps = 0 := by
  have hloaded := h.cpu.withMemory (Program.written_loadProgram emu.cpu.memory p)
  have hreset := reset_of_own hloaded.arch hloaded.registers p.entry
  rw [← h.behaviour] at hreset
  obtain ⟨emu', hemu', hbehaviour, hcpu⟩ := Emulator.reset_of_program hprogram hreset
  refine ⟨emu', hemu', ⟨hbehaviour.trans h.behaviour, hcpu ▸ hloaded.reset p.entry⟩, ?_⟩
  rw [hcpu]
  exact ⟨rfl, rfl, rfl⟩

theorem reset (h : Intact emu) : Intact emu.reset.1 := by
  cases hprogram : emu.program with
  | none =>
    rw [Emulator.reset, hprogram]
    exact h
  | some p =>
    obtain ⟨emu', hemu', hintact, -⟩ := h.reset_of_program hprogram
    rw [hemu']
    exact hintact

end Intact

/-- What may be done with an emulator: it ticks, runs and is reset, its memory is written to, its registers
are set, and its program, its breakpoints and its report are changed. -/
inductive History (start : Emulator) : Emulator → Prop
  | refl : History start start
  | tick {emu : Emulator} (h : History start emu) : History start emu.tick.1
  | run {emu : Emulator} (h : History start emu) (limit : Nat) : History start (emu.run limit).1
  | reset {emu : Emulator} (h : History start emu) : History start emu.reset.1
  | write {emu : Emulator} (h : History start emu) {m : Memory} (hm : emu.cpu.memory.Written m) :
    History start { emu with cpu := { emu.cpu with memory := m } }
  | set {emu : Emulator} (h : History start emu) (reg : Text) (v : UInt64) :
    History start { emu with cpu := emu.cpu.set reg v }
  | configure {emu : Emulator} (h : History start emu) (program : Option Program)
    (breakpoints : Std.TreeSet UInt64) (verbose : Bool) (log : List Text) :
    History start { emu with program, breakpoints, verbose, log }

/-- Nothing that is done with an emulator keeps it from being reset. -/
theorem History.intact {start emu : Emulator} (h : History start emu) (hstart : Intact start) :
    Intact emu := by
  induction h with
  | refl => exact hstart
  | tick _ ih => exact ih.tick
  | run _ limit ih => exact Emulator.run_induction (fun _ => Intact.tick) limit ih
  | reset _ ih => exact ih.reset
  | write _ hm ih => exact ⟨ih.behaviour, ih.cpu.withMemory hm⟩
  | set _ reg v ih => exact ⟨ih.behaviour, ih.cpu.set reg v⟩
  | configure _ _ _ _ _ ih => exact ⟨ih.behaviour, ih.cpu⟩

end Mos6502

/-! ## Assembled programs -/

theorem Tree.BuiltFor.isBounded {arch : Architecture} {t : Tree} (h : t.BuiltFor arch)
    (hwidth : arch.addressWidth < 64) : ∀ n ∈ t.nodes, n.IsBounded arch := by
  induction h with
  | parse a _ _ name text _ =>
    intro n hn
    exact n.isBounded_of_address arch ((a.unplaced_parse name text).nodes n hn)
  | @assemble a ha t _ m out hout ih =>
    -- The addresses of an earlier layout were bounded too, so that it does not matter which ones are kept.
    obtain ⟨-, rfl⟩ := Assembler.assemble_eq_some hout
    intro n hn
    change n ∈ (t.layout a.arch a.origin).1.nodes at hn
    rw [nodes_layout, ha] at hn
    exact (Layout.bounded_run hwidth a.origin t.labels ih).isBounded_nodes n hn

namespace Mos6502

/-- A program that was assembled into an empty memory with addresses of 16 bits is reproduced by loading it.
Its binary, put at its lowest address, gives every byte of it, if its statements are below the size limit of
a machine. A reset of an emulator succeeds whatever was done with the emulator before, gives every byte and
every mark of the program and nothing else, and starts the processor anew at the first instruction. -/
theorem reset_reproduces {a : Assembler} (hwidth : a.arch.addressWidth = 16) {t : Tree}
    (ht : t.BuiltFor a.arch) {out : Assembled} (hout : a.assemble t a.freshMemory = some out) :
    ((∀ n ∈ t.nodes, n.size < 2 ^ 62) → ∀ m : Memory, m.width = 16 → ∀ mark addr,
      (m.clear.load out.program.start out.program.binary mark).read addr = out.program.memory.read addr) ∧
    ∀ start emu, Intact start → History start emu → emu.program = some out.program →
      ∃ emu', emu.reset = (emu', none) ∧ (∀ addr, emu'.cpu.memory.SameAt out.program.memory addr) ∧
        emu'.cpu.registers = Registers.file
          { a := 0, x := 0, y := 0, sp := 0xFD, pc := out.program.entry % 0x10000, p := 0x24 } ∧
        emu'.cpu.steps = 0 := by
  obtain ⟨-, rfl⟩ := Assembler.assemble_eq_some hout
  have hoverlay := t.isOverlay_assemble a.arch a.origin a.wrapBranches a.freshMemory
  set out := t.assemble a.arch a.origin a.wrapBranches a.freshMemory
  have hmask : out.program.memory.mask = a.freshMemory.mask := Program.mask_foldl_load a.freshMemory _
  -- The program lies in a memory that was empty, so that all it has beyond its rows are zeros without marks.
  have hblank : ∀ addr, a.freshMemory.read addr = 0 ∧ a.freshMemory.markAt addr = .unused := fun addr =>
    ⟨Memory.read_clear a.freshMemory addr, Memory.markAt_clear a.freshMemory addr⟩
  have hmemory : ∀ m : Memory, m.width = 16 → m.mask = out.program.memory.mask := by
    intro m hm
    rw [hmask, Memory.mask, Memory.mask, hm, ← hwidth]
    rfl
  constructor
  · intro hsize m hm mark addr
    refine Program.read_load_binary hoverlay hblank hmask rfl ?_ (hmemory m hm) mark addr
    intro r hr
    obtain ⟨n, hn, enc, e, he, rfl⟩ := Tree.exists_leading_of_mem_rows hr
    have hshort : a.arch.addressWidth < 64 := by omega
    exact Tree.row_lt_of_isBounded (ht.isBounded hshort) hshort hsize hn he
  · intro start emu hstart hhistory hprogram
    have hintact := hhistory.intact hstart
    obtain ⟨emu', hreset, -, hloaded, hregisters, hsteps⟩ := hintact.reset_of_program hprogram
    refine ⟨emu', hreset, fun addr => ?_, ?_, hsteps⟩
    · rw [hloaded]
      exact Program.sameAt_loadProgram hoverlay hblank hmask (hmemory _ hintact.cpu.width) addr
    · have hentry : out.program.entry &&& Word.mask 16 = out.program.entry % 0x10000 := by
        rw [← UInt64.toNat_inj, Word.toNat_and_mask _ (by decide), UInt64.toNat_mod]
        rfl
      rw [hregisters, Registers.initial, hentry]

/-- An emulator that has run a program, that was written to afterwards, and that is given the program once
more. -/
def usedEmulator (p : Program) : Emulator :=
  let emu := ({ Emulator.ofArchitecture architecture behaviour with program := some p }.reset.1.run 2).1
  { emu with cpu := { emu.cpu with memory := emu.cpu.memory.write 0x8000 0x55 }, program := some p }

theorem history_usedEmulator (p : Program) :
    History (.ofArchitecture architecture behaviour) (usedEmulator p) :=
  .configure (.write (.run (.reset (.configure .refl (some p) ∅ false [])) 2) (.write .refl 0x8000 0x55))
    (some p) _ _ _

theorem reset_reproduces_straddling :
    let a := Assembler.ofArchitecture architecture
    ∃ out, a.assemble (a.parse "demo" Assembler.straddlingSource).tree a.freshMemory = some out ∧
      (∀ mark addr, (a.freshMemory.clear.load out.program.start out.program.binary mark).read addr =
        out.program.memory.read addr) ∧
      (usedEmulator out.program).cpu.memory.read 0x8000 = 0x55 ∧
      ∃ emu', (usedEmulator out.program).reset = (emu', none) ∧
        (∀ addr, emu'.cpu.memory.SameAt out.program.memory addr) ∧
        emu'.cpu.registers = Registers.file
          { a := 0, x := 0, y := 0, sp := 0xFD, pc := out.program.entry % 0x10000, p := 0x24 } ∧
        emu'.cpu.steps = 0 := by
  intro a
  have hcheck : (a.parse "demo" Assembler.straddlingSource).tree.errors.isEmpty ∧
      ∀ n ∈ (a.parse "demo" Assembler.straddlingSource).tree.nodes, n.size < 2 ^ 62 := by
    decide +kernel
  obtain ⟨herrors, hsize⟩ := hcheck
  have hbuilt : (a.parse "demo" Assembler.straddlingSource).tree.BuiltFor architecture :=
    .parse a rfl (fun _ _ hfile => by cases hfile) _ _
  have hfresh : Intact (.ofArchitecture architecture behaviour) := ⟨rfl, rfl, rfl, rfl, rfl⟩
  obtain ⟨hbinary, hreset⟩ := reset_reproduces (a := a) rfl hbuilt (if_pos herrors)
  refine ⟨_, if_pos herrors, hbinary hsize _ rfl, ?_, hreset _ _ hfresh (history_usedEmulator _) rfl⟩
  exact (Memory.read_write _ _ _ _).trans (if_pos rfl)

end Mos6502

end EightBit
