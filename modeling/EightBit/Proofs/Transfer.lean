import Mathlib
import EightBit.Proofs.Execution
import EightBit.Proofs.Linking
import EightBit.Proofs.Overlay

/-!
# Control transfers of assembled programs

A jump, a call or a branch to a label is encoded by one part of the library and executed by another one.
Both agree: wherever the bytes of such an instruction are still in memory, a 6502 that executes them goes on
at the label, or behind the instruction where a branch is not taken. This holds for both orders of bytes, and
for addresses that wrap around.

* `Tree.FromParse.isWord_of_ref`: only words refer to labels.
* `Mos6502.Transfers`: the instructions that lead to a label, and whether they do so.
* `Mos6502.Running`: a 6502 that can execute instructions.
* `Mos6502.Running.step_transfer`: a step by what memory holds.
* `Mos6502.step_to_label`: a step of an assembled program.
-/

namespace EightBit

/-! ## References -/

/-- Only a word is ever bound to a label. -/
theorem Link.isWord_of_mem_resolve {arch : Architecture} {s : References} {n k : Node}
    (hk : k ∈ (resolve arch s n).2) {mnemonic : Text} {mode : Mode} {op : Operand}
    (helement : k.element = .instruction mnemonic mode (some op)) {id : LabelId} (href : op.ref = some id) :
    op.isWord := by
  rcases resolve_cases hk with ⟨_, _, _, _, _, rfl⟩ | ⟨-, rfl⟩
  · cases helement
  · have hop : op ∈ (n.element.mapOperands (bind arch.dialect s.labels n.scope)).operands := by
      have hsame : n.element.mapOperands _ = _ := helement
      rw [hsame]
      exact List.mem_singleton_self op
    rw [Element.operands_mapOperands] at hop
    obtain ⟨op', -, rfl⟩ := List.mem_map.1 hop
    simp only [bind] at href
    split_ifs at href with hword
    exact hword

namespace Tree

theorem FromParse.isWord_of_ref {t : Tree} (h : t.FromParse) {n : Node} (hn : n ∈ t.nodes) {mnemonic : Text}
    {mode : Mode} {op : Operand} (helement : n.element = .instruction mnemonic mode (some op)) {id : LabelId}
    (href : op.ref = some id) : op.isWord := by
  induction h generalizing n with
  | parse arch r _ _ =>
    rw [Tree.parse, nodes_link] at hn
    obtain ⟨_, _, _, -, hk⟩ := Section.exists_of_mem_rebuild_nodes hn
    exact Link.isWord_of_mem_resolve hk helement href
  | assemble a _ m hout ih =>
    obtain ⟨-, rfl⟩ := Assembler.assemble_eq_some hout
    obtain ⟨k, hk, hsame⟩ := exists_of_mem_layout hn
    exact ih hk (hsame.trans helement)

end Tree

/-! ## Bytes of instructions -/

namespace Encoding

variable {enc : Encoding}

/-- The value of a word with a label is the address of the label. -/
theorem addressOf?_of_value {op : Operand} (hword : op.isWord) {id : LabelId} (href : op.ref = some id)
    {v : UInt64} (h : enc.value op = .ok v) : enc.labels.addressOf? id = some v := by
  rw [value, if_pos hword, href] at h
  simp only at h
  split at h
  next addr haddr =>
    cases h
    exact haddr
  next => cases h

/-- What is emitted for an instruction with an operand. -/
theorem exists_bits_of_emit? {n : Node} {mnemonic : Text} {mode : Mode} {op : Operand}
    (helement : n.element = .instruction mnemonic mode (some op)) (hoperand : mode.operand.isSome)
    (hsize : 0 < mode.operandSize) {e : Emission} (h : enc.emit? n = some (.ok e)) :
    ∃ entry v raw, enc.arch.table.lookup? mnemonic mode = some entry ∧ enc.value op = .ok v ∧
      enc.operandBits mode (n.addr + mode.length.toUInt64) v = .ok raw ∧
      e.row.bytes = entry.opcode :: enc.arch.encode raw mode.operandSize := by
  unfold emit? at h
  simp only [helement] at h
  cases hrow : enc.instruction n.addr mnemonic mode (some op) with
  | error err => simp [hrow] at h
  | ok row =>
    simp only [hrow, Option.some.injEq, Except.ok.injEq] at h
    subst h
    obtain ⟨entry, raw, hentry, -, hraw, -, hbytes⟩ := exists_entry_of_instruction hrow
    rw [rawOperand, if_pos ⟨hoperand, hsize⟩] at hraw
    obtain ⟨v, hv, hbits⟩ := exists_of_bind_eq_ok hraw
    exact ⟨entry, v, raw, hentry, hv, hbits, hbytes⟩

end Encoding

/-- The instruction that memory holds at an address is fetched with its operand. -/
theorem Cpu.fetch_of_readBytes {c : Cpu} {pc raw : UInt64} {mode : Mode} {opcode : UInt8}
    (hsize : mode.operandSize < 8)
    (h : c.memory.readBytes pc (mode.operandSize + 1) =
      opcode :: c.memory.order.encode raw mode.operandSize) :
    c.memory.read pc = opcode ∧ c.operandWord pc mode = raw &&& Word.mask (8 * mode.operandSize) := by
  obtain ⟨hopcode, hrest⟩ := List.cons.inj h
  refine ⟨hopcode, ?_⟩
  rw [operandWord, Memory.readWord, hrest, ByteOrder.decode_encode _ _ hsize]
  split_ifs with hzero
  · rw [hzero]
    exact (UInt64.and_zero).symm
  · rfl

/-! ## Processors -/

/-- A processor that differs from another one at most in memory and in the values of registers. -/
structure Cpu.Resembles (c' c : Cpu) : Prop where
  /-- The architecture is the same. -/
  arch : c'.arch = c.arch
  /-- The registers are the same. -/
  definitions : c'.registers.map Register.definition = c.registers.map Register.definition

namespace Cpu.Resembles

variable {c c' : Cpu}

theorem refl (c : Cpu) : c.Resembles c := ⟨rfl, rfl⟩

theorem definition_find? (h : c'.Resembles c) (name : Text) :
    (c'.registers.find? name).map Register.definition = (c.registers.find? name).map Register.definition := by
  rw [RegisterFile.definition_find?, RegisterFile.definition_find?, h.definitions]

/-- Pushing bytes needs the stack pointer only. -/
theorem pushBytes (s : Stack) (bytes : List UInt8) (hpointer : (c.registers.find? s.pointer).isSome) :
    ∃ c', s.pushBytes c bytes = .ok c' ∧ c'.Resembles c := by
  induction bytes generalizing c with
  | nil => exact ⟨c, rfl, refl c⟩
  | cons b rest ih =>
    obtain ⟨sp, hsp⟩ := Option.isSome_iff_exists.1 hpointer
    set c₁ : Cpu := { c with memory := c.memory.write (s.base + sp.value) b }.set s.pointer (sp.value - 1)
      with hc₁
    have hpush : s.push c b = .ok c₁ := by
      rw [Stack.push, Cpu.register, hsp]
      rfl
    have hfound : (c₁.registers.find? s.pointer).isSome := by
      have hupdate := RegisterFile.find?_update s.pointer (f := (·.set (sp.value - 1))) (fun _ => rfl)
        c.registers
      rw [hsp] at hupdate
      exact Option.isSome_iff_exists.2 ⟨_, hupdate⟩
    obtain ⟨c', hrest, h⟩ := ih hfound
    refine ⟨c', by rw [Stack.pushBytes, hpush]; exact hrest, h.arch, h.definitions.trans ?_⟩
    exact RegisterFile.definitions_updateWhere _ (f := (·.set (sp.value - 1))) (fun _ => rfl) _

end Cpu.Resembles

namespace Mos6502

/-- The flag that a branch depends on, and how it has to be. -/
def Operation.condition? : Operation → Option (Flag × Bool)
  | bcc => some (.carry, false)
  | bcs => some (.carry, true)
  | bne => some (.zero, false)
  | beq => some (.zero, true)
  | bpl => some (.negative, false)
  | bmi => some (.negative, true)
  | bvc => some (.overflow, false)
  | bvs => some (.overflow, true)
  | _ => none

/-- The instructions that lead to the address of their operand, by whether they do so on a processor. -/
inductive Transfers (c : Cpu) : Operation → Addressing → Bool → Prop
  | jump : Transfers c .jmp .abs true
  | call : Transfers c .jsr .abs true
  | branch {o : Operation} {f : Flag} {on : Bool} (h : o.condition? = some (f, on)) :
    Transfers c o .rel (flag c f == on)

/-- A branch is taken if its flag is as it has to be. -/
theorem Operation.run_of_condition? {o : Operation} {f : Flag} {on : Bool} (h : o.condition? = some (f, on))
    (c : Cpu) (i : Instruction) : o.run c i = i.branch c (flag c f == on) := by
  cases o <;> cases h <;> simp [run]

namespace Transfers

variable {c : Cpu} {o : Operation} {a : Addressing} {taken : Bool}

theorem mode_eq (h : Transfers c o a taken) : a = .abs ∨ a = .rel := by
  cases h <;> simp

/-- A transfer goes to its address, or on behind itself. -/
theorem run (h : Transfers c o a taken) (hsp : (c.registers.find? Reg.sp).isSome) {operand : Resolved}
    {addr : UInt64} (haddr : operand.address = some addr) (pc : UInt64) :
    ∃ c', c'.Resembles c ∧ o.run c ⟨a.mode, operand, pc⟩ =
      ⟨c', .ok (some ((if taken then addr else pc + 2) &&& 0xFFFF))⟩ := by
  cases h with
  | jump => exact ⟨c, .refl c, by rw [Operation.run, Instruction.withTarget, haddr]; rfl⟩
  | call =>
    -- The return address is pushed first, which cannot fail while the stack pointer is there.
    obtain ⟨c', hpush, h'⟩ := Cpu.Resembles.pushBytes stack (Word.littleBytes 2 (pc + 2)).reverse hsp
    refine ⟨c', h', ?_⟩
    rw [Operation.run, Instruction.withTarget, haddr]
    simp only [Stack.pushWord, hpush, attempt]
    rfl
  | @branch _ f on hcondition =>
    refine ⟨c, .refl c, ?_⟩
    rw [Operation.run_of_condition? hcondition, Instruction.branch]
    split_ifs
    · rw [Instruction.withTarget, haddr]
      rfl
    · rfl

end Transfers

/-- The 6502 with another order of bytes in words. -/
def ordered (order : Option ByteOrder) : Architecture := { architecture with byteOrder := order }

theorem addressMask_ordered (order : Option ByteOrder) : (ordered order).addressMask = 0xFFFF := by
  show Word.mask 16 = 0xFFFF
  decide

theorem table_ordered (order : Option ByteOrder) : (ordered order).table = table := by
  simp only [ordered, table_architecture]

/-- A 6502 that can execute instructions. -/
structure Running (c : Cpu) : Prop where
  /-- It is a 6502. -/
  arch : ∃ order, c.arch = ordered order
  /-- It was reset. -/
  ready : c.ready = true
  /-- It was not stopped. -/
  fault : c.fault = none
  /-- All registers are there. -/
  registers : c.missing? behaviour = none
  /-- The program counter has room for an address. -/
  counter : ∀ r, c.registers.find? Reg.pc = some r → 16 ≤ r.definition.width

namespace Running

variable {c : Cpu}

theorem isSome_find? (h : Running c) {name : Text} (hname : name ∈ behaviour.required) :
    (c.registers.find? name).isSome := by
  have hfound := List.find?_eq_none.1 h.registers name (List.mem_cons_of_mem _ hname)
  simpa [Option.isSome_iff_ne_none] using hfound

theorem execute_eq (h : Running c) (o : Operation) (mode : Mode) (opcode : UInt8) (op : Resolved)
    (pc : UInt64) : execute c ⟨o.name, mode, opcode⟩ op pc = o.run c ⟨mode, op, pc⟩ := by
  have hused : (used.find? fun name => (c.registers.find? name).isNone) = none := by
    refine List.find?_eq_none.2 fun name hname => ?_
    have hrequired : ∀ name ∈ used, name ∈ behaviour.required := by decide
    have hsome := h.isSome_find? (hrequired name hname)
    simp [Option.isSome_iff_ne_none.1 hsome]
  rw [execute, Operation.ofName?_name]
  simp only [hused]

/-- An address fits the program counter. -/
theorem get_set_pc (h : Running c) {c' : Cpu} (h' : c'.Resembles c) (addr : UInt64) :
    (c'.set Reg.pc (addr &&& 0xFFFF)).get Reg.pc = addr &&& 0xFFFF := by
  obtain ⟨r, hr⟩ := Option.isSome_iff_exists.1 (h.isSome_find? (by simp [behaviour] : Reg.pc ∈ _))
  have hsame := h'.definition_find? Reg.pc
  rw [hr] at hsame
  obtain ⟨r', hr', hdefinition⟩ := Option.map_eq_some_iff.1 hsame
  have hwidth : 16 ≤ r'.definition.width := hdefinition ▸ h.counter r hr
  have hupdate := RegisterFile.find?_update Reg.pc (f := (·.set (addr &&& 0xFFFF))) (fun _ => rfl)
    c'.registers
  rw [hr'] at hupdate
  rw [Cpu.get, Cpu.set, RegisterFile.get, hupdate]
  show addr &&& 0xFFFF &&& Word.mask r'.definition.width = addr &&& 0xFFFF
  -- A register that is as wide as a word cuts nothing off.
  by_cases hword : r'.definition.width < 64
  · have hlt : (addr &&& 0xFFFF).toNat < 2 ^ 16 := by
      have hmask := Word.toNat_and_mask addr (show 16 < 64 by decide)
      exact hmask.trans_lt (Nat.mod_lt _ (by decide))
    exact Word.and_mask_of_lt hword (Nat.lt_of_lt_of_le hlt (Nat.pow_le_pow_right (by decide) hwidth))
  · rw [Word.mask, if_neg hword]
    exact UInt64.and_neg_one

/-- The transfer of a table entry is performed. -/
theorem perform_transfer (h : Running c) {o : Operation} {a : Addressing} {taken : Bool}
    (htransfers : Transfers c o a taken) (opcode : UInt8) {addr : UInt64}
    (haddr : (a.resolve c (c.operandWord c.pc a.mode) c.pc).address = some addr) :
    ∃ c', c.perform behaviour ⟨o.name, a.mode, opcode⟩ = (c', none) ∧
      c'.pc = (if taken then addr else c.pc + 2) &&& 0xFFFF := by
  obtain ⟨c₁, h₁, hrun⟩ := htransfers.run (h.isSome_find? (by simp [behaviour])) haddr c.pc
  have hresolve : resolve c a.mode (c.operandWord c.pc a.mode) c.pc =
      a.resolve c (c.operandWord c.pc a.mode) c.pc := by
    rw [resolve, Addressing.ofMode?_mode]
  have hexecute : behaviour.execute c ⟨o.name, a.mode, opcode⟩
      (behaviour.resolve c a.mode (c.operandWord c.pc a.mode) c.pc) c.pc =
        ⟨c₁, .ok (some ((if taken then addr else c.pc + 2) &&& 0xFFFF))⟩ := by
    rw [← hrun, ← h.execute_eq o a.mode opcode, ← hresolve]
    rfl
  -- The order of bytes matters neither for the program counter nor for the width of addresses.
  obtain ⟨order, harch⟩ := h.arch
  have hpc : c₁.arch.pc = Reg.pc := by rw [h₁.arch, harch]; rfl
  have hmask : c₁.arch.addressMask = 0xFFFF := by rw [h₁.arch, harch, addressMask_ordered]
  refine ⟨_, Cpu.perform_of_next (congrArg Effect.next hexecute), ?_⟩
  rw [hexecute, hpc, hmask, Option.getD_some, UInt64.and_assoc, UInt64.and_self]
  show (c₁.set Reg.pc _).get c₁.arch.pc = _
  rw [hpc]
  exact h.get_set_pc h₁ _

/-- A step over a transfer in memory goes to the address of its operand, or on behind the instruction. -/
theorem step_transfer (h : Running c) {o : Operation} {a : Addressing} {opcode : UInt8}
    (hentry : ⟨o.name, a.mode, opcode⟩ ∈ table.entries) (hopcode : c.memory.read c.pc = opcode) {taken : Bool}
    (htransfers : Transfers c o a taken) {addr : UInt64}
    (haddr : (a.resolve c (c.operandWord c.pc a.mode) c.pc).address = some addr) :
    ∃ c', c.step behaviour = (c', none) ∧ c'.pc = (if taken then addr else c.pc + 2) &&& 0xFFFF := by
  obtain ⟨c', hperform, hpc⟩ := h.perform_transfer htransfers opcode haddr
  refine ⟨c', ?_, hpc⟩
  obtain ⟨order, harch⟩ := h.arch
  have hdecode : c.arch.table.decode? (c.memory.read c.pc) = some ⟨o.name, a.mode, opcode⟩ := by
    rw [hopcode, harch, table_ordered, decode?_of_mem_table hentry]
  simp [Cpu.step, h.fault, h.ready, h.registers, hdecode, hperform]

end Running

/-! ## Assembled programs -/

/-- The operand bits of a label lead back to it, from the address of the instruction on. -/
theorem address_resolve_operandBits {enc : Encoding} (hwrap : enc.wrapBranches = false) {a : Addressing}
    (ha : a = .abs ∨ a = .rel) {addr target raw : UInt64}
    (hbits : enc.operandBits a.mode (addr + a.mode.length.toUInt64) target = .ok raw) (c : Cpu) :
    ∃ dest, (a.resolve c (raw &&& Word.mask (8 * a.mode.operandSize)) (addr &&& 0xFFFF)).address = some dest ∧
      dest &&& 0xFFFF = target &&& 0xFFFF := by
  have hmask : Word.mask 16 = 0xFFFF := by decide
  rcases ha with rfl | rfl
  · obtain rfl : target &&& Word.mask 16 = raw := Except.ok.inj hbits
    refine ⟨_, rfl, ?_⟩
    show target &&& Word.mask 16 &&& Word.mask 16 &&& 0xFFFF &&& 0xFFFF = _
    simp only [hmask, UInt64.and_assoc, UInt64.and_self]
  · -- The distance is in range, so that its lowest byte is all of it.
    unfold Encoding.operandBits at hbits
    rw [if_neg (by decide)] at hbits
    simp only [hwrap, Bool.not_false, Bool.true_and] at hbits
    split_ifs at hbits with hrange
    obtain rfl := Except.ok.inj hbits
    have hbounds : -128 ≤ Word.toInt (target - (addr + 2)) ∧ Word.toInt (target - (addr + 2)) < 128 := by
      simp only [Bool.or_eq_true, decide_eq_true_eq, not_or, not_lt, not_le] at hrange
      exact hrange
    refine ⟨_, rfl, ?_⟩
    show ((addr &&& 0xFFFF) + 2 + UInt64.ofInt (Word.signExtend
      ((target - (addr + 2)) &&& Word.mask 8 &&& Word.mask 8) 1)) &&& 0xFFFF &&& 0xFFFF = _
    rw [UInt64.and_assoc _ (Word.mask 8), UInt64.and_self, Word.ofInt_signExtend_one hbounds.1 hbounds.2,
      UInt64.and_assoc _ 0xFFFF, UInt64.and_self, UInt64.add_assoc, ← hmask,
      Word.and_mask_add_and_mask _ _ (by decide)]
    congr 1
    rw [← UInt64.add_assoc, UInt64.add_comm, UInt64.sub_add_cancel]

/-- A step over the bytes of a transfer to a label, as long as they are in memory. -/
theorem Running.step_encoded {c : Cpu} (h : Running c) {enc : Encoding} {order : Option ByteOrder}
    (harch : enc.arch = ordered order) (hwrap : enc.wrapBranches = false) (hwidth : c.memory.width = 16)
    (horder : c.memory.order = enc.arch.order) {n : Node} {o : Operation} {a : Addressing} {op : Operand}
    (helement : n.element = .instruction o.name a.mode (some op)) (hword : op.isWord) {id : LabelId}
    (href : op.ref = some id) {e : Emission} (hemit : enc.emit? n = some (.ok e))
    (hbytes : c.memory.readBytes n.addr e.row.bytes.length = e.row.bytes) (hpc : c.pc = n.addr &&& 0xFFFF)
    {taken : Bool} (htransfers : Transfers c o a taken) :
    ∃ target c', enc.labels.addressOf? id = some target ∧ c.step behaviour = (c', none) ∧
      c'.pc = (if taken then target else n.addr + 2) &&& 0xFFFF := by
  have hmode := htransfers.mode_eq
  have hsize : a.mode.operand.isSome ∧ 0 < a.mode.operandSize ∧ a.mode.operandSize < 8 := by
    rcases hmode with rfl | rfl <;> decide
  obtain ⟨entry, target, raw, hlookup, hvalue, hbits, hrow⟩ :=
    Encoding.exists_bits_of_emit? helement hsize.1 hsize.2.1 hemit
  rw [harch, table_ordered] at hlookup
  obtain ⟨opcode, -, rfl⟩ := exists_of_lookup? hlookup
  -- Memory holds the same bytes at the address cut to its width.
  have hmask : c.memory.mask = 0xFFFF := by rw [Memory.mask, hwidth]; decide
  have hread : c.memory.readBytes c.pc (a.mode.operandSize + 1) =
      opcode :: c.memory.order.encode raw a.mode.operandSize := by
    rw [hrow, List.length_cons, Architecture.encode, ByteOrder.length_encode] at hbytes
    rw [hpc, ← hmask, Memory.readBytes_and_mask _ (by omega), hbytes, horder]
  obtain ⟨hopcode, hoperand⟩ := Cpu.fetch_of_readBytes hsize.2.2 hread
  obtain ⟨dest, hdest, hsame⟩ := address_resolve_operandBits hwrap hmode hbits c
  rw [← hoperand, ← hpc] at hdest
  obtain ⟨c', hstep, hpc'⟩ := h.step_transfer (Table.mem_of_lookup? hlookup) hopcode htransfers hdest
  refine ⟨target, c', Encoding.addressOf?_of_value hword href hvalue, hstep, ?_⟩
  rw [hpc']
  split_ifs
  · exact hsame
  · rw [hpc, ← hmask, Memory.mask, Word.and_mask_add_and_mask _ _ (by omega)]

/-- Control transfers of an assembled program land on their labels: where the bytes of a jump, a call or a
branch to a label are still in the memory of the program, a step over them leads to the address of the label
if it is taken, and behind the instruction if it is not. -/
theorem step_to_label (order : Option ByteOrder) {a : Assembler} (ha : a.arch = ordered order)
    (hwrap : a.wrapBranches = false) {t : Tree} (ht : t.FromParse) {m : Memory}
    (hwidth : m.width = a.arch.addressWidth) (horder : m.order = a.arch.order) {out : Assembled}
    (hout : a.assemble t m = some out) {n : Node} (hn : n ∈ out.tree.nodes) {o : Operation}
    {mode : Addressing} {op : Operand} (helement : n.element = .instruction o.name mode.mode (some op))
    {id : LabelId} (href : op.ref = some id) {e : Emission}
    (hemit : Encoding.emit? { arch := a.arch, wrapBranches := a.wrapBranches, labels := out.tree.labels } n =
      some (.ok e))
    (hbytes : out.program.memory.readBytes n.addr e.row.bytes.length = e.row.bytes) {c : Cpu}
    (hc : Running c) (hmemory : c.memory = out.program.memory) (hpc : c.pc = n.addr &&& 0xFFFF) {taken : Bool}
    (htransfers : Transfers c o mode taken) :
    ∃ target c', out.tree.labels.addressOf? id = some target ∧ c.step behaviour = (c', none) ∧
      c'.pc = (if taken then target else n.addr + 2) &&& 0xFFFF := by
  have hword := (Tree.FromParse.assemble a ht m hout).isWord_of_ref hn helement href
  have hloaded : c.memory.width = 16 ∧ c.memory.order = a.arch.order := by
    unfold Assembler.assemble at hout
    split_ifs at hout
    cases hout
    rw [hmemory, ← horder]
    refine ⟨(Program.map_foldl_load m Memory.width_load _).trans ?_, Program.map_foldl_load m Memory.order_load _⟩
    rw [hwidth, ha]
    rfl
  rw [← hmemory] at hbytes
  exact hc.step_encoded ha hwrap hloaded.1 hloaded.2 helement hword href hemit hbytes hpc htransfers

/-- A branch at the end of the address space to aligned data right behind it. -/
def wrappingSource : Text := " BNE far\nfar: .half 1\n"

/-- An assembler for words with the highest byte first that starts at the end of the address space. -/
def wrappingAssembler : Assembler :=
  { Assembler.ofArchitecture (ordered (some .big)) with origin := 0xFFFD }

/-- The outcome of assembling the branch. -/
def wrappingOutcome : Assembled :=
  (wrappingAssembler.parse "top" wrappingSource).tree.assemble (ordered (some .big)) 0xFFFD false
    (.empty 16 (some .big))

/-- A processor at the branch, with all flags clear. -/
def wrappingCpu (m : Memory) : Cpu :=
  { Cpu.ofArchitecture (ordered none) with memory := m, ready := true }.set Reg.pc 0xFFFD

/-- The instruction that a statement is, the label that it names, and where which bytes are put for it. -/
def encodedAt? (enc : Encoding) (n : Node) : Option (Text × Mode × Option LabelId × UInt64 × List UInt8) :=
  match n.element, enc.emit? n with
  | .instruction mnemonic mode (some op), some (.ok e) => some (mnemonic, mode, op.ref, n.addr, e.row.bytes)
  | _, _ => none

theorem step_to_label_wrapping :
    wrappingAssembler.assemble (wrappingAssembler.parse "top" wrappingSource).tree (.empty 16 (some .big)) =
        some wrappingOutcome ∧
      Running (wrappingCpu wrappingOutcome.program.memory) ∧
      Transfers (wrappingCpu wrappingOutcome.program.memory) .bne .rel true ∧
      wrappingOutcome.tree.labels.addressOf? 0 = some 0x10000 ∧
      ∃ c', (wrappingCpu wrappingOutcome.program.memory).step behaviour = (c', none) ∧ c'.pc = 0 := by
  -- The first statement is the branch, and nothing that follows was loaded over its bytes.
  set enc : Encoding := ⟨ordered (some .big), false, wrappingOutcome.tree.labels⟩
  have hcheck : (wrappingAssembler.parse "top" wrappingSource).tree.errors.isEmpty ∧
      wrappingOutcome.tree.nodes.head?.bind (encodedAt? enc) =
          some (Operation.bne.name, Addressing.rel.mode, some 0, 0xFFFD, [0xD0, 0x01]) ∧
      wrappingOutcome.program.memory.readBytes 0xFFFD 2 = [0xD0, 0x01] ∧
      wrappingOutcome.tree.labels.addressOf? 0 = some 0x10000 := by
    decide +kernel
  obtain ⟨herrors, hfirst, hread, hlabel⟩ := hcheck
  have hout : wrappingAssembler.assemble (wrappingAssembler.parse "top" wrappingSource).tree
      (.empty 16 (some .big)) = some wrappingOutcome := if_pos herrors
  have hrunning : ∀ m, Running (wrappingCpu m) := by
    intro m
    refine ⟨⟨none, rfl⟩, rfl, rfl, rfl, ?_⟩
    rintro r ⟨⟩
    decide
  have htransfers : ∀ m, Transfers (wrappingCpu m) .bne .rel true := by
    intro m
    have hclear : (flag (wrappingCpu m) .zero == false) = true := rfl
    exact hclear ▸ .branch rfl
  have hpc : ∀ m, (wrappingCpu m).pc = 0xFFFD := fun m => rfl
  have hmemory : ∀ m, (wrappingCpu m).memory = m := fun m => rfl
  refine ⟨hout, hrunning _, htransfers _, hlabel, ?_⟩
  obtain ⟨n, hn, hnode⟩ := Option.bind_eq_some_iff.1 hfirst
  unfold encodedAt? at hnode
  split at hnode
  next op e helement hemit =>
    simp only [Option.some.injEq, Prod.mk.injEq] at hnode
    obtain ⟨rfl, rfl, href, haddr, hbytes⟩ := hnode
    have htree : (wrappingAssembler.parse "top" wrappingSource).tree.FromParse := by
      rw [Assembler.tree_parse]
      refine .parse _ _ fun t ht => ?_
      obtain ⟨_, hfile⟩ := Assembler.mem_imports_preprocessed ht
      cases hfile
    obtain ⟨target, c', htarget, hstep, hpc'⟩ := step_to_label (some .big) rfl rfl htree rfl rfl hout
      (List.mem_of_mem_head? hn) helement href hemit (by rw [haddr, hbytes]; exact hread) (hrunning _)
      (hmemory _) (by rw [hpc, haddr]; decide) (htransfers _)
    obtain rfl : 0x10000 = target := Option.some.inj (hlabel.symm.trans htarget)
    exact ⟨c', hstep, by rw [hpc', if_pos rfl]; decide⟩
  next => cases hnode

end Mos6502

end EightBit
