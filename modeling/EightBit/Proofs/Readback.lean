import Mathlib
import EightBit.Proofs.RoundTrip

/-!
# Programs of instructions are read back

A source of instructions and labels, assembled from an address on, is a run of adjacent instructions in
memory. The disassembly of this run lists the same rows as the assembler did, whatever the operands were
written like: both show an operand by its bits and the address behind the instruction, and the bytes of
an instruction determine all of its row.

* `Layout.sequence`: statements one after the other, where nothing is aligned.
* `Mos6502.exists_of_emit?`: the row of an encoded statement is the row of an instruction.
* `Mos6502.CodedInstruction.row_eq_of_bytes`: the bytes of an instruction determine its row.
* `Mos6502.walk_of_readBytes`: a walk over adjacent instructions lists all of them.
* `Mos6502.assemble_disassemble`: assembling and disassembling.
-/

namespace EightBit

/-! ## Statements one after the other -/

namespace Layout

/-- Statements one after the other from an address on, where addresses are cut to the bits of `mask`. -/
def sequence (mask : UInt64) : UInt64 → List Node → List Node
  | _, [] => []
  | next, n :: rest =>
    { n with address := some next } :: sequence mask ((next + n.size.toUInt64) &&& mask) rest

variable {arch : Architecture}

/-- A statement that neither chooses an address nor is aligned is put at the next address. -/
theorem nodes_step_of_unaligned (arch : Architecture) (s : Layout) {n : Node} (hplace : n.address = none)
    (hkind : n.kind ≠ .setPc) (halign : n.element.alignment? = none) :
    (step arch s n).nodes = s.nodes ++ [{ n with address := some s.next }] ∧
      (step arch s n).next = (s.next + n.size.toUInt64) &&& arch.addressMask := by
  cases hlabel : n.declared? with
  | none =>
    rw [step_of_not_label arch s hplace hlabel, advance_of_alignment?_eq_none arch s hkind halign]
    exact ⟨by simp [nodes], rfl⟩
  | some id =>
    have helement := Node.element_of_declared? hlabel
    have hsize : n.size = 0 := by rw [Node.size, helement]; rfl
    rw [step_of_label arch s hplace helement, hsize]
    exact ⟨by simp [nodes], by simp [Nat.toUInt64]⟩

/-- Where no statement chooses an address or is aligned, they stand one after the other. -/
theorem nodes_foldl_step {ns : List Node} (hplace : ∀ n ∈ ns, n.address = none)
    (hkind : ∀ n ∈ ns, n.kind ≠ .setPc) (halign : ∀ n ∈ ns, n.element.alignment? = none) (s : Layout) :
    (ns.foldl (step arch) s).nodes = s.nodes ++ sequence arch.addressMask s.next ns := by
  induction ns generalizing s with
  | nil => simp [sequence]
  | cons n rest ih =>
    obtain ⟨hnode, hnext⟩ := nodes_step_of_unaligned arch s (hplace n List.mem_cons_self)
      (hkind n List.mem_cons_self) (halign n List.mem_cons_self)
    rw [List.foldl_cons, ih (fun k hk => hplace k (List.mem_cons_of_mem n hk))
      (fun k hk => hkind k (List.mem_cons_of_mem n hk)) (fun k hk => halign k (List.mem_cons_of_mem n hk)),
      hnode, hnext, List.append_assoc]
    rfl

end Layout

/-- Instructions, and what has neither bytes nor a say in addresses. -/
def Node.isCode (n : Node) : Bool :=
  match n.kind with
  | .instruction | .label | .global | .sectionStart => true
  | _ => false

namespace Node

variable {n : Node}

theorem kind_ne_setPc_of_isCode (h : n.isCode) : n.kind ≠ .setPc := by
  intro hkind
  simp [isCode, hkind] at h

theorem alignment?_of_isCode (h : n.isCode) : n.element.alignment? = none := by
  cases helement : n.element <;> first | rfl | simp [isCode, kind, helement, Element.kind] at h

/-- Without its instructions code has no bytes. -/
theorem size_of_isCode (h : n.isCode) (hkind : n.kind ≠ .instruction) : n.size = 0 := by
  rw [size]
  cases helement : n.element <;> first | rfl | simp_all [isCode, kind, Element.kind]

theorem emit?_of_isCode (h : n.isCode) (hkind : n.kind ≠ .instruction) (enc : Encoding) :
    enc.emit? n = none := by
  cases helement : n.element <;> simp_all [Encoding.emit?, isCode, kind, Element.kind]

end Node

namespace Encoding

variable {enc : Encoding}

/-- Operand bits fit into the bytes behind the opcode. -/
theorem rawOperand_lt {mode : Mode} {next raw : UInt64} {operand : Option Operand}
    (hsize : 8 * mode.operandSize < 64) (h : enc.rawOperand mode next operand = .ok raw) :
    raw.toNat < 2 ^ (8 * mode.operandSize) := by
  have hmask : ∀ v : UInt64, (v &&& Word.mask (8 * mode.operandSize)).toNat < 2 ^ (8 * mode.operandSize) := by
    intro v
    rw [Word.toNat_and_mask v hsize]
    exact Nat.mod_lt _ (Nat.two_pow_pos _)
  unfold rawOperand at h
  split_ifs at h
  · cases operand with
    | none => cases h
    | some op =>
      obtain ⟨v, -, h⟩ := exists_of_bind_eq_ok h
      simp only [operandBits] at h
      split_ifs at h
      · cases h
        exact hmask _
      · cases h
        exact hmask _
  · cases h
    exact Nat.two_pow_pos _

end Encoding

namespace Mos6502

/-- The row of an instruction that can be encoded is the row of its operation with some operand bits. -/
theorem exists_of_emit? {enc : Encoding} (harch : enc.arch = architecture) {n : Node}
    (hkind : n.kind = .instruction) (hok : ∀ err, enc.emit? n ≠ some (.error err)) :
    ∃ (e : Emission) (i : CodedInstruction), enc.emit? n = some (.ok e) ∧ e.row.bare = i.row n.addr ∧
      i.length = n.size ∧ e.mark = .program := by
  obtain ⟨mnemonic, mode, operand, helement⟩ :
      ∃ mnemonic mode operand, n.element = .instruction mnemonic mode operand := by
    cases helement : n.element with
    | instruction mnemonic mode operand => exact ⟨mnemonic, mode, operand, rfl⟩
    | _ => simp [Node.kind, helement, Element.kind] at hkind
  cases hrow : enc.instruction n.addr mnemonic mode operand with
  | error err =>
    refine absurd ?_ (hok (.at n err))
    simp only [Encoding.emit?, helement, hrow]
  | ok row =>
    have hemit : enc.emit? n =
        some (.ok ⟨{ row with loc := n.loc, labels := enc.labels.namesAt n.addr }, .program⟩) := by
      simp only [Encoding.emit?, helement, hrow]
    obtain ⟨entry, raw, hentry, rfl, hraw, -⟩ := Encoding.exists_entry_of_instruction hrow
    rw [Encoding.instruction_eq hentry, hraw, harch] at hrow
    rw [harch, table_architecture] at hentry
    have hmem := Table.mem_of_lookup? hentry
    obtain ⟨op, a, -, heq⟩ := exists_of_mem_table hmem
    obtain ⟨mnemonic', mode, opcode⟩ := entry
    obtain ⟨rfl, rfl⟩ : mnemonic' = op.name ∧ mode = a.mode := by simpa using heq
    have hshort : 8 * a.mode.operandSize < 64 := by cases a <;> decide
    refine ⟨_, ⟨op, a, opcode, raw, hmem, Encoding.rawOperand_lt hshort hraw⟩, hemit, ?_, ?_, rfl⟩
    · cases hrow
      rfl
    · rw [Node.size, helement]
      rfl

/-- Code that is encoded without errors is a run of adjacent instructions. -/
theorem emissions_sequence {enc : Encoding} (harch : enc.arch = architecture) {ns : List Node}
    (hcode : ∀ n ∈ ns, n.isCode) {addr : UInt64} (hfit : addr.toNat + (ns.map Node.size).sum ≤ 2 ^ 16)
    (hok : ∀ n ∈ Layout.sequence architecture.addressMask (addr &&& architecture.addressMask) ns,
      ∀ err, enc.emit? n ≠ some (.error err)) :
    ∃ (is : List CodedInstruction) (es : List Emission),
      (Layout.sequence architecture.addressMask (addr &&& architecture.addressMask) ns).filterMap
          enc.emit? = es.map .ok ∧
        es.map (fun e => e.row.bare) = (placed addr is).map (fun p => p.1.row p.2) ∧
        (∀ e ∈ es, e.mark = .program) ∧ totalLength is = (ns.map Node.size).sum := by
  induction ns generalizing addr with
  | nil => exact ⟨[], [], rfl, rfl, by simp, rfl⟩
  | cons n rest ih =>
    have hn := hcode n List.mem_cons_self
    have hrest : ∀ k ∈ rest, k.isCode := fun k hk => hcode k (List.mem_cons_of_mem n hk)
    rw [List.map_cons, List.sum_cons] at hfit
    have hsum : (addr + n.size.toUInt64).toNat = addr.toNat + n.size :=
      toNat_add_length (by omega) (by omega)
    -- Cutting the address before the size is added makes no difference.
    have hnext : ((addr &&& architecture.addressMask) + n.size.toUInt64) &&& architecture.addressMask =
        (addr + n.size.toUInt64) &&& architecture.addressMask :=
      Word.and_mask_add_and_mask addr n.size.toUInt64 (n := 16) (by decide)
    rw [Layout.sequence, hnext] at hok ⊢
    obtain ⟨hfirst, hlater⟩ := List.forall_mem_cons.1 hok
    obtain ⟨is, es, hes, hrows, hmarks, htotal⟩ := ih hrest (by omega) hlater
    set placedNode : Node := { n with address := some (addr &&& architecture.addressMask) }
    by_cases hkind : n.kind = .instruction
    · obtain ⟨e, i, hemit, hrow, hlen, hmark⟩ := exists_of_emit? harch (n := placedNode) hkind hfirst
      have hsize : i.length = n.size := hlen
      have hpos := i.length_pos
      -- Only behind the last instruction may the address be cut to the bottom.
      have haddr : placedNode.addr = addr := Word.and_mask_of_lt (n := 16) (by decide) (by omega)
      refine ⟨i :: is, e :: es, ?_, ?_, ?_, ?_⟩
      · rw [List.filterMap_cons, hemit, hes]
        rfl
      · rw [List.map_cons, hrow, haddr, hrows, placed, List.map_cons, hsize]
      · exact List.forall_mem_cons.2 ⟨hmark, hmarks⟩
      · rw [totalLength_cons, List.map_cons, List.sum_cons, hsize, htotal]
    · have hzero : n.size = 0 := Node.size_of_isCode hn hkind
      have hnone : enc.emit? placedNode = none := Node.emit?_of_isCode (n := placedNode) hn hkind enc
      refine ⟨is, es, ?_, ?_, hmarks, ?_⟩
      · rw [List.filterMap_cons, hnone, hes]
      · rw [hrows, hzero]
        simp [Nat.toUInt64]
      · rw [List.map_cons, List.sum_cons, hzero, Nat.zero_add, htotal]

/-! ## Walking over instructions -/

/-- The bytes of an instruction determine its row. -/
theorem CodedInstruction.row_eq_of_bytes {i j : CodedInstruction} (h : i.bytes = j.bytes) (addr : UInt64) :
    i.row addr = j.row addr := by
  obtain ⟨hopcode, hoperand⟩ := List.cons.inj h
  have hi := decode?_of_mem_table i.mem_table
  have hj := decode?_of_mem_table j.mem_table
  simp only at hi hj
  rw [hopcode, hj, Option.some.injEq, Entry.mk.injEq] at hi
  obtain ⟨hname, hmode, -⟩ := hi
  have hlen : j.length = i.length := congrArg Mode.length hmode
  -- The operand bits are read back from the bytes behind the opcode.
  have hbits : ∀ k : CodedInstruction, architecture.order.decode
      (architecture.order.encode k.operand (k.length - 1)) = k.operand := by
    intro k
    have hshort := k.length_le
    rw [ByteOrder.decode_encode _ _ (by omega)]
    exact Word.and_mask_of_lt (by omega) k.operand_lt
  have heq : i.operand = j.operand := by
    rw [← hbits i, ← hbits j]
    exact congrArg _ hoperand
  simp only [CodedInstruction.row, hname, hmode, hlen, heq, h]

/-- A walk over adjacent instructions lists all of them. -/
theorem walk_of_readBytes (m : Memory) (labels : UInt64 → List Text) {is : List CodedInstruction}
    {addr stop : UInt64} (htotal : addr.toNat + totalLength is = stop.toNat) (hstop : stop.toNat ≤ 2 ^ 16)
    (hbytes : m.readBytes addr (totalLength is) = is.flatMap CodedInstruction.bytes) {fuel : Nat}
    (hfuel : totalLength is ≤ fuel) :
    (Disassembly.walk architecture m labels stop fuel addr).ending = .reached ∧
      (Disassembly.walk architecture m labels stop fuel addr).rows.map Row.bare =
        (placed addr is).map (fun p => p.1.row p.2) := by
  induction is generalizing addr fuel with
  | nil =>
    -- The walk is at its end, with or without fuel left.
    have hdone : stop ≤ addr := by
      rw [UInt64.le_iff_toNat_le, ← htotal]
      exact le_rfl
    cases fuel with
    | zero => exact ⟨rfl, rfl⟩
    | succ fuel =>
      rw [Disassembly.walk, if_pos hdone]
      exact ⟨rfl, rfl⟩
  | cons i is ih =>
    have hpos := i.length_pos
    have hshort := i.length_le
    rw [totalLength_cons] at htotal hbytes hfuel
    obtain ⟨fuel, rfl⟩ : ∃ k, fuel = k + 1 := ⟨fuel - 1, by omega⟩
    have hsum : (addr + i.length.toUInt64).toNat = addr.toNat + i.length :=
      toNat_add_length (by omega) (by omega)
    rw [Memory.readBytes_add, List.flatMap_cons] at hbytes
    obtain ⟨hfirst, hrest⟩ := List.append_inj hbytes (by rw [Memory.length_readBytes, i.length_bytes])
    have hopcode : m.read addr = i.opcode := by
      have hhead := m.getElem?_readBytes addr hpos
      rw [hfirst] at hhead
      simpa [CodedInstruction.bytes, Nat.toUInt64] using hhead.symm
    have hdecode : table.decode? (m.read addr) = some ⟨i.op.name, i.addressing.mode, i.opcode⟩ := by
      rw [hopcode]
      exact decode?_of_mem_table i.mem_table
    obtain ⟨j, hjlen, hjbytes, hjrow⟩ := exists_of_decode m labels hdecode (by omega)
    have hlen : j.length = i.length := hjlen
    rw [hlen, hfirst] at hjbytes
    rw [CodedInstruction.row_eq_of_bytes hjbytes.symm] at hjrow
    have hleft : totalLength is ≤ fuel := by omega
    obtain ⟨hending, hrows⟩ := ih (by omega) hrest hleft
    -- There is room for the instruction before the end, and it does not wrap around.
    have hopen : ¬ stop ≤ addr := by rw [UInt64.le_iff_toNat_le]; omega
    have hroom : ¬ stop < addr + i.addressing.mode.length.toUInt64 := by
      rw [UInt64.lt_iff_toNat_lt]
      exact Nat.not_lt.2 (hsum.trans_le (by omega))
    have hforward : ¬ addr + i.addressing.mode.length.toUInt64 ≤ addr := by
      rw [UInt64.le_iff_toNat_le]
      exact Nat.not_le.2 (Nat.lt_of_lt_of_eq (by omega) hsum.symm)
    rw [Disassembly.walk, if_neg hopen, table_architecture]
    simp only [hdecode, if_neg hroom, if_neg hforward]
    refine ⟨hending, ?_⟩
    rw [List.map_cons, hjrow, placed, List.map_cons]
    exact congrArg _ hrows

/-- The disassembly of a program of adjacent instructions has the rows of the program. -/
theorem run_ofEmissions {is : List CodedInstruction} {es : List Emission} {start : UInt64}
    (hrows : es.map (fun e => e.row.bare) = (placed start is).map (fun p => p.1.row p.2))
    (hmarks : ∀ e ∈ es, e.mark = .program) (hfit : start.toNat + totalLength is ≤ 2 ^ 16) {m : Memory}
    (hwidth : m.width = 16) (labels : UInt64 → List Text) :
    let prog := Program.ofEmissions architecture m es
    (Disassembly.run architecture prog.memory labels prog.start prog.stop).ending = .reached ∧
      (Disassembly.run architecture prog.memory labels prog.start prog.stop).rows.map Row.bare =
        prog.rows.map Row.bare := by
  intro prog
  have hstop : start.toNat + totalLength is = (start + (totalLength is).toUInt64).toNat :=
    (toNat_add_length (by omega) (by omega)).symm
  have hkept : prog.rows = es.map Emission.row :=
    (binary_ofEmissions hrows hmarks hstop (hstop ▸ hfit) hwidth).1
  have hbare : prog.rows.map Row.bare = (placed start is).map fun p => p.1.row p.2 := by
    rw [hkept, List.map_map]
    exact hrows
  cases is with
  | nil =>
    have hnone : prog.rows = [] := by simpa [placed] using hbare
    have hbounds : prog.start = (Program.bounds prog.rows).1 ∧ prog.stop = (Program.bounds prog.rows).2 :=
      ⟨rfl, rfl⟩
    rw [hbounds.1, hbounds.2, hnone]
    exact ⟨rfl, rfl⟩
  | cons i is =>
    have hbounds : (prog.start, prog.stop) = (start, start + (totalLength (i :: is)).toUInt64) :=
      bounds_of_placed hbare hstop (hstop ▸ hfit)
    obtain ⟨hstart, hend⟩ := Prod.mk.inj hbounds
    have hmemory : prog.memory = m.load start ((i :: is).flatMap CodedInstruction.bytes) .program :=
      foldl_load hrows hmarks m
    -- All the bytes fit into the memory, so that none of them is loaded over another.
    have hbytes : prog.memory.readBytes start (totalLength (i :: is)) =
        (i :: is).flatMap CodedInstruction.bytes := by
      rw [hmemory, ← length_flatMap_bytes]
      refine m.readBytes_load (by omega) start _ .program ?_
      rw [length_flatMap_bytes, hwidth]
      omega
    rw [hstart, hend, hbare, Disassembly.run]
    exact walk_of_readBytes prog.memory labels hstop (hstop ▸ hfit) hbytes (by omega)

/-- A source of instructions, labels, exports and section starts that is assembled without errors, and
does not reach over the top of the memory, is disassembled to the rows of its listing. -/
theorem assemble_disassemble (p a : Assembler) (harch : a.arch = architecture) (name text : Text)
    (hcode : ∀ n ∈ (p.parse name text).tree.nodes, n.isCode)
    (hfit : a.origin.toNat + ((p.parse name text).tree.nodes.map Node.size).sum ≤ 2 ^ 16) (m : Memory)
    (hwidth : m.width = 16) {out : Assembled} (hout : a.assemble (p.parse name text).tree m = some out)
    (herrors : out.errors = []) (labels : UInt64 → List Text) :
    let listed := Disassembly.run architecture out.program.memory labels out.program.start out.program.stop
    listed.ending = .reached ∧ listed.rows.map Row.bare = out.program.rows.map Row.bare := by
  have hunplaced := p.unplaced_parse name text
  generalize (p.parse name text).tree = t at hcode hfit hout hunplaced
  unfold Assembler.assemble at hout
  split_ifs at hout
  obtain rfl := Option.some.inj hout
  rw [harch] at herrors ⊢
  set enc : Encoding :=
    { arch := architecture, wrapBranches := a.wrapBranches,
      labels := (t.layout architecture a.origin).1.labels } with henc
  -- Without padding and placement the statements follow each other, each behind the one before.
  have hnodes : (t.layout architecture a.origin).1.nodes =
      Layout.sequence architecture.addressMask (a.origin &&& architecture.addressMask) t.nodes := by
    rw [Tree.nodes_layout, Layout.run, Layout.nodes_foldl_step hunplaced.nodes
      (fun n hn => Node.kind_ne_setPc_of_isCode (hcode n hn))
      (fun n hn => Node.alignment?_of_isCode (hcode n hn))]
    rfl
  have hok : ∀ n ∈ Layout.sequence architecture.addressMask (a.origin &&& architecture.addressMask) t.nodes,
      ∀ err, enc.emit? n ≠ some (.error err) := by
    intro n hn err hemit
    have hfailed := (List.append_eq_nil_iff.1 herrors).2
    rw [List.filterMap_eq_nil_iff] at hfailed
    rw [← hnodes] at hn
    have hnone := hfailed _ (List.mem_filterMap.2 ⟨n, hn, hemit⟩)
    cases hnone
  obtain ⟨is, es, hes, hrows, hmarks, htotal⟩ := emissions_sequence rfl hcode hfit hok
  have hprogram : (t.assemble architecture a.origin a.wrapBranches m).program =
      Program.ofEmissions architecture m es := by
    simp only [Tree.assemble, hnodes, ← henc, hes, Encoding.filterMap_toOption_ok]
  rw [hprogram]
  exact run_ofEmissions hrows hmarks (htotal ▸ hfit) hwidth labels

/-- An assembler whose first address leaves twelve bytes up to the top of the memory. -/
def topmostAssembler : Assembler := { Assembler.ofArchitecture architecture with origin := 0xFFF4 }

/-- Twelve bytes of code with references to labels before and behind them. -/
def topmostSource : Text :=
  " .text\n .global main\nmain: LDX #$03\n.loop: DEX\n BNE .loop\n JMP (main)\n STA last,X\nlast: BRK\n"

theorem assemble_disassemble_topmost :
    let tree := (topmostAssembler.parse "top" topmostSource).tree
    ((∀ n ∈ tree.nodes, n.isCode) ∧
        topmostAssembler.origin.toNat + (tree.nodes.map Node.size).sum = 2 ^ 16) ∧
      ∃ out, topmostAssembler.assemble tree topmostAssembler.freshMemory = some out ∧ out.errors = [] ∧
        out.program.rows.length = 6 ∧
        let listed := Disassembly.run architecture out.program.memory (fun _ => []) out.program.start
          out.program.stop
        listed.ending = .reached ∧ listed.rows.map Row.bare = out.program.rows.map Row.bare := by
  intro tree
  have hcheck : ((∀ n ∈ tree.nodes, n.isCode) ∧
      topmostAssembler.origin.toNat + (tree.nodes.map Node.size).sum = 2 ^ 16) ∧
      ∃ out ∈ topmostAssembler.assemble tree topmostAssembler.freshMemory,
        out.errors = [] ∧ out.program.rows.length = 6 := by
    decide +kernel
  obtain ⟨⟨hcode, hfit⟩, out, hout, herrors, hrows⟩ := hcheck
  have hroom : topmostAssembler.origin.toNat + (tree.nodes.map Node.size).sum ≤ 2 ^ 16 := hfit.le
  have hlisted := assemble_disassemble topmostAssembler topmostAssembler rfl "top" topmostSource hcode hroom
    topmostAssembler.freshMemory rfl hout herrors fun _ => []
  exact ⟨⟨hcode, hfit⟩, out, hout, herrors, hrows, hlisted⟩

end Mos6502

end EightBit
