import Mathlib
import EightBit.Disassembly
import EightBit.Proofs.Consistency
import EightBit.Proofs.Memory

/-!
# Disassembly tiles its range

The rows of a disassembly follow each other without a gap, and each has the bytes of the instruction at its
address. Where they leave off there is a reason, which the walk reports: the end of the range, a byte that
is no opcode, an instruction that passes the end of the range, or one that reaches the last address of all.
Everything is compared in numbers, where sums do not wrap around.

* `Listing.Tiles`: rows one after the other.
* `Row.Shows`: a row with the bytes of the instruction at its address.
* `WalkEnd.Explains`: what the end of a walk says about the address that it got to.
* `Disassembly.walk_tiles`: the rows of a walk, and where and why it ends.
* `Mos6502.run_tiles`: the disassembly of a range with at least three addresses behind it.
* `Disassembly.run_slices`: the disassembly of any range.
-/

namespace EightBit

/-- Every opcode that a table decodes begins an instruction of at least one byte, whose length is a word. -/
def Table.Sized (t : Table) : Prop :=
  ∀ b e, t.decode? b = some e → 0 < e.mode.length ∧ e.mode.length < 2 ^ 64

/-- Rows that follow each other without a gap, the first one at a number and the last one ending before
another. -/
def Listing.Tiles : Nat → Listing → Nat → Prop
  | first, [], past => first = past
  | first, r :: rest, past => r.address.toNat = first ∧ Tiles (first + r.bytes.length) rest past

/-- A row with the bytes of the instruction at its address. -/
structure Row.Shows (t : Table) (m : Memory) (r : Row) : Prop where
  /-- The first byte is decoded to an instruction of this mnemonic, mode and length. -/
  decoded : ∃ b e, r.bytes.head? = some b ∧ t.decode? b = some e ∧ r.mnemonic = e.mnemonic ∧
    r.mode = some e.mode ∧ r.bytes.length = e.mode.length
  /-- The bytes are those of the memory. -/
  read : ∀ (k : Nat) (b : UInt8), r.bytes[k]? = some b → b = m.read (r.address + k.toUInt64)

/-- What the end of a walk up to `stop` says about the address that it got to. -/
inductive WalkEnd.Explains (t : Table) (m : Memory) (stop addr : UInt64) : WalkEnd → Prop
  /-- The end of the range. -/
  | reached (h : stop ≤ addr) : Explains t m stop addr .reached
  /-- A byte that is no opcode. -/
  | unknown (h : addr < stop) (hdecode : t.decode? (m.read addr) = none) :
    Explains t m stop addr (.failed ⟨addr, m.read addr, .opcodeUnknown⟩)
  /-- An instruction that passes the end of the range. -/
  | truncated (h : addr < stop) {e : Entry} (hdecode : t.decode? (m.read addr) = some e)
    (hstop : stop.toNat < addr.toNat + e.mode.length) (hlast : addr.toNat + e.mode.length < 2 ^ 64) :
    Explains t m stop addr (.failed ⟨addr, m.read addr, .truncated⟩)
  /-- An instruction that reaches the last address, so that the address behind it is no word. -/
  | overflowed (h : addr < stop) {e : Entry} (hdecode : t.decode? (m.read addr) = some e)
    (hlast : 2 ^ 64 ≤ addr.toNat + e.mode.length) : Explains t m stop addr (.overflowed addr)

namespace WalkEnd.Explains

variable {t : Table} {m : Memory} {stop addr : UInt64} {ending ending' : WalkEnd}

/-- There is one reason to end at an address. -/
theorem unique (h : ending.Explains t m stop addr) (h' : ending'.Explains t m stop addr) :
    ending = ending' := by
  cases h <;> cases h' <;> grind [UInt64.not_le]

/-- A walk that ends at an opcode before the end of the range has no room for the instruction. -/
theorem lt_of_decode? (h : ending.Explains t m stop addr) (hopen : addr < stop) {e : Entry}
    (hdecode : t.decode? (m.read addr) = some e) : stop.toNat < addr.toNat + e.mode.length := by
  have hlt := stop.toNat_lt
  cases h with
  | reached hdone => exact absurd hdone (UInt64.not_le.2 hopen)
  | unknown _ hnone => simp [hdecode] at hnone
  | truncated _ hsome hstop =>
    obtain rfl : e = _ := Option.some.inj (hdecode.symm.trans hsome)
    exact hstop
  | overflowed _ hsome hlast =>
    obtain rfl : e = _ := Option.some.inj (hdecode.symm.trans hsome)
    omega

end WalkEnd.Explains

namespace Listing.Tiles

variable {first past : Nat} {rows : Listing}

/-- Rows that all end before a number lead no further. -/
theorem le {n : Nat} (h : Tiles first rows past) (hfirst : first ≤ n)
    (hrows : ∀ r ∈ rows, r.address.toNat + r.bytes.length ≤ n) : past ≤ n := by
  induction rows generalizing first with
  | nil => exact h ▸ hfirst
  | cons r rest ih =>
    obtain ⟨haddr, hrest⟩ := h
    obtain ⟨hr, hmore⟩ := List.forall_mem_cons.1 hrows
    exact ih hrest (haddr ▸ hr) hmore

end Listing.Tiles

/-- The byte at the address of a row that shows an instruction is its opcode. -/
theorem Row.Shows.decode?_read {t : Table} {m : Memory} {r : Row} (h : r.Shows t m) :
    ∃ e, t.decode? (m.read r.address) = some e ∧ r.bytes.length = e.mode.length := by
  obtain ⟨b, e, hhead, hdecode, -, -, hlength⟩ := h.decoded
  rw [List.head?_eq_getElem?] at hhead
  have hread : b = m.read r.address := by simpa [Nat.toUInt64] using h.read 0 b hhead
  exact ⟨e, hread ▸ hdecode, hlength⟩

/-- The bytes of a row that shows an instruction are the slice of the memory from its address on. -/
theorem Row.Shows.bytes_eq_slice {t : Table} {m : Memory} {r : Row} (h : r.Shows t m)
    (hlast : r.address.toNat + r.bytes.length < 2 ^ 64) : r.bytes = m.slice r.address r.stop := by
  have hstop : r.address.toNat + r.bytes.length = r.stop.toNat := by
    rw [Row.stop, UInt64.toNat_add, Word.toNat_toUInt64 (by omega), Nat.mod_eq_of_lt hlast]
  rw [m.slice_eq_readBytes hstop]
  refine List.ext_getElem (by simp) fun k hk hk' => ?_
  have hread := m.getElem?_readBytes r.address hk
  rw [List.getElem?_eq_getElem hk', Option.some.injEq] at hread
  rw [hread]
  exact h.read k _ (List.getElem?_eq_getElem hk)

namespace Disassembly

variable {arch : Architecture} {m : Memory} {labels : UInt64 → List Text} {stop addr : UInt64}

/-- The address behind an instruction, in numbers. -/
theorem toNat_next (addr : UInt64) {n : Nat} (hn : n < 2 ^ 64) :
    (addr + n.toUInt64).toNat =
      if addr.toNat + n < 2 ^ 64 then addr.toNat + n else addr.toNat + n - 2 ^ 64 := by
  have haddr := addr.toNat_lt
  rw [UInt64.toNat_add, Word.toNat_toUInt64 hn]
  split_ifs <;> omega

/-- The slice of an instruction that reaches the last address would end before it starts. -/
theorem slice_of_overflow {n : Nat} (hn : n < 2 ^ 64) (hlast : 2 ^ 64 ≤ addr.toNat + n) :
    m.slice addr (addr + n.toUInt64) = [] := by
  have haddr := addr.toNat_lt
  have hnext := toNat_next addr hn
  rw [if_neg (Nat.not_lt.2 hlast)] at hnext
  have hback : ¬ addr < addr + n.toUInt64 := by
    rw [UInt64.lt_iff_toNat_lt]
    omega
  rw [Memory.slice, if_neg hback]

/-- The row of an instruction that ends before the last address shows it. -/
theorem shows_row (labels : UInt64 → List Text) {e : Entry}
    (hdecode : arch.table.decode? (m.read addr) = some e)
    (hpos : 0 < e.mode.length) (hlast : addr.toNat + e.mode.length < 2 ^ 64) :
    (row arch m labels addr e).Shows arch.table m ∧
      (row arch m labels addr e).bytes.length = e.mode.length := by
  have hnext := toNat_next addr (n := e.mode.length) (by omega)
  rw [if_pos hlast] at hnext
  have hbytes : (row arch m labels addr e).bytes = m.readBytes addr e.mode.length :=
    m.slice_eq_readBytes hnext.symm
  have hlength : (row arch m labels addr e).bytes.length = e.mode.length := by
    rw [hbytes, Memory.length_readBytes]
  have hread : ∀ k, k < e.mode.length →
      (row arch m labels addr e).bytes[k]? = some (m.read (addr + k.toUInt64)) := by
    intro k hk
    rw [hbytes, m.getElem?_readBytes addr hk]
  refine ⟨⟨⟨m.read addr, e, ?_, hdecode, rfl, rfl, hlength⟩, ?_⟩, hlength⟩
  · rw [List.head?_eq_getElem?, hread 0 hpos]
    simp [Nat.toUInt64]
  · intro k b hk
    obtain ⟨hlt, -⟩ := List.getElem?_eq_some_iff.1 hk
    rw [hread k (hlength ▸ hlt)] at hk
    exact (Option.some.inj hk).symm

/-- A walk with enough fuel lists the instructions up to an address at which there is a reason to end. -/
theorem walk_tiles (hsized : arch.table.Sized) {fuel : Nat} (hfuel : stop.toNat - addr.toNat ≤ fuel) :
    ∃ past : UInt64, (walk arch m labels stop fuel addr).rows.Tiles addr.toNat past.toNat ∧
      (∀ r ∈ (walk arch m labels stop fuel addr).rows,
        r.Shows arch.table m ∧ r.address.toNat + r.bytes.length ≤ stop.toNat) ∧
      (walk arch m labels stop fuel addr).ending.Explains arch.table m stop past := by
  induction fuel generalizing addr with
  | zero => exact ⟨addr, rfl, by simp [walk], .reached (UInt64.le_iff_toNat_le.2 (by omega))⟩
  | succ fuel ih =>
    rw [walk]
    split_ifs with hdone
    · exact ⟨addr, rfl, by simp, .reached hdone⟩
    have hopen : addr < stop := UInt64.not_le.1 hdone
    cases hdecode : arch.table.decode? (m.read addr) with
    | none =>
      simp only [hdecode]
      exact ⟨addr, rfl, by simp, .unknown hopen hdecode⟩
    | some e =>
      obtain ⟨hpos, hword⟩ := hsized _ _ hdecode
      have hnext := toNat_next addr hword
      have hbefore := UInt64.lt_iff_toNat_lt.1 hopen
      simp only [hdecode, UInt64.lt_iff_toNat_lt, UInt64.le_iff_toNat_le]
      by_cases hlast : addr.toNat + e.mode.length < 2 ^ 64
      · rw [if_pos hlast] at hnext
        rw [hnext]
        split_ifs with hover hwrap
        · exact ⟨addr, rfl, by simp, .truncated hopen hdecode hover hlast⟩
        · omega
        · -- The instruction is the first row; the fuel left is enough, since it takes at least one byte.
          obtain ⟨hshows, hlength⟩ := shows_row labels hdecode hpos hlast
          obtain ⟨past, htiles, hrows, hending⟩ := @ih (addr + e.mode.length.toUInt64) (by omega)
          refine ⟨past, ⟨rfl, ?_⟩, ?_, hending⟩
          · rwa [hlength, ← hnext]
          · exact List.forall_mem_cons.2 ⟨⟨hshows, hlength ▸ Nat.not_lt.1 hover⟩, hrows⟩
      · -- The sum wraps around to an address before this one, so that it does not look truncated.
        rw [if_neg hlast] at hnext
        rw [hnext, if_neg (by omega), if_pos (by omega)]
        exact ⟨addr, rfl, by simp, .overflowed hopen hdecode (Nat.not_lt.1 hlast)⟩

theorem run_explained (hsized : arch.table.Sized) (m : Memory) (labels : UInt64 → List Text)
    (start stop : UInt64) :
    ∃ past : UInt64, (run arch m labels start stop).rows.Tiles start.toNat past.toNat ∧
      (∀ r ∈ (run arch m labels start stop).rows,
        r.Shows arch.table m ∧ r.address.toNat + r.bytes.length ≤ stop.toNat) ∧
      (run arch m labels start stop).ending.Explains arch.table m stop past :=
  walk_tiles hsized le_rfl

/-- It is never for want of fuel that a walk ends. -/
theorem walk_eq_of_le {fuel fuel' : Nat} (hfuel : stop.toNat - addr.toNat ≤ fuel) (hle : fuel ≤ fuel') :
    walk arch m labels stop fuel' addr = walk arch m labels stop fuel addr := by
  induction fuel generalizing addr fuel' with
  | zero =>
    have hdone : stop ≤ addr := UInt64.le_iff_toNat_le.2 (by omega)
    cases fuel' with
    | zero => rfl
    | succ fuel' => rw [walk, walk, if_pos hdone]
  | succ fuel ih =>
    obtain ⟨fuel', rfl⟩ : ∃ k, fuel' = k + 1 := ⟨fuel' - 1, by omega⟩
    rw [walk, walk]
    split_ifs with hdone
    · rfl
    cases hdecode : arch.table.decode? (m.read addr) with
    | none => simp only [hdecode]
    | some e =>
      simp only [hdecode]
      split_ifs with hover hwrap
      · rfl
      · rfl
      · -- The next address is further on, by `hwrap`, so that less fuel is enough for what is left.
        rw [UInt64.le_iff_toNat_le] at hdone hwrap
        rw [ih (by omega) (by omega)]

end Disassembly

namespace Mos6502

/-- An instruction of the 6502 has one to three bytes. -/
theorem length_of_decode? {b : UInt8} {e : Entry} (h : table.decode? b = some e) :
    0 < e.mode.length ∧ e.mode.length ≤ 3 := by
  obtain ⟨op, a, -, rfl⟩ := exists_of_decode? h
  have hlength : 0 < a.mode.length ∧ a.mode.length ≤ 3 := by cases a <;> decide
  exact hlength

theorem sized_table : table.Sized := by
  intro b e h
  have hlength := length_of_decode? h
  omega

/-- The disassembly of a range ends by itself. Its rows show the instructions from the start up to an address
without a gap, and this is the end of the range, or there is an error with this address and the byte there,
whose cause tells whether the byte is no opcode or its instruction passes the end. -/
theorem run_tiles {arch : Architecture} (harch : arch.table = table) (m : Memory)
    (labels : UInt64 → List Text) {start stop : UInt64} (hle : start ≤ stop)
    (hstop : stop.toNat ≤ 2 ^ 64 - 3) :
    let d := Disassembly.run arch m labels start stop
    (∀ fuel, stop.toNat - start.toNat ≤ fuel → Disassembly.walk arch m labels stop fuel start = d) ∧
    ∃ past : UInt64, d.rows.Tiles start.toNat past.toNat ∧ (∀ r ∈ d.rows, r.Shows table m) ∧
      (d.ending = .reached ∧ past = stop ∨
        ∃ cause, d.ending = .failed ⟨past, m.read past, cause⟩ ∧ past < stop ∧
          (cause = .opcodeUnknown ↔ table.decode? (m.read past) = none) ∧
          (cause = .truncated ↔
            ∃ e, table.decode? (m.read past) = some e ∧ stop.toNat < past.toNat + e.mode.length)) := by
  intro d
  refine ⟨fun fuel hfuel => Disassembly.walk_eq_of_le le_rfl hfuel, ?_⟩
  obtain ⟨past, htiles, hrows, hending⟩ := Disassembly.run_explained (harch ▸ sized_table) m labels start stop
  rw [harch] at hrows hending
  have hpast := htiles.le (UInt64.le_iff_toNat_le.1 hle) fun r hr => (hrows r hr).2
  refine ⟨past, htiles, fun r hr => (hrows r hr).1, ?_⟩
  -- By `WalkEnd.Explains` there are four ways to end; the range leaves no room for the last of them.
  change d.ending.Explains table m stop past at hending
  generalize d.ending = ending at hending ⊢
  cases hending with
  | reached h => exact .inl ⟨rfl, UInt64.le_antisymm (UInt64.le_iff_toNat_le.2 hpast) h⟩
  | unknown h hdecode => exact .inr ⟨_, rfl, h, by simp [hdecode], by simp [hdecode]⟩
  | truncated h hdecode hover => exact .inr ⟨_, rfl, h, by simp [hdecode], by simp [hdecode, hover]⟩
  | overflowed h hdecode hlast =>
    -- Three bytes from an address before the end do not reach the last address.
    have hlength := length_of_decode? hdecode
    rw [UInt64.lt_iff_toNat_lt] at h
    omega

/-- Four bytes that are repeated over and over: `LDA #$05`, `NOP` and the opcode of an `LDA` that takes its
operand from the first two. -/
def repeatedMemory : Memory := (Memory.empty 2 none).load 0 [0xA9, 0x05, 0xEA, 0xAD] .program

/-- Eleven of these bytes, the last of them three before the last address. -/
def repeatedDisassembly : Disassembly :=
  Disassembly.run architecture repeatedMemory (fun _ => []) 0xFFFFFFFFFFFFFFF2 0xFFFFFFFFFFFFFFFD

theorem run_tiles_repeated :
    (architecture.table = table ∧ (0xFFFFFFFFFFFFFFF2 : UInt64) ≤ 0xFFFFFFFFFFFFFFFD ∧
      (0xFFFFFFFFFFFFFFFD : UInt64).toNat ≤ 2 ^ 64 - 3) ∧
    ∃ past : UInt64, repeatedDisassembly.rows.Tiles (0xFFFFFFFFFFFFFFF2 : UInt64).toNat past.toNat ∧
      (∀ r ∈ repeatedDisassembly.rows, r.Shows table repeatedMemory) ∧
      (repeatedDisassembly.ending = .reached ∧ past = 0xFFFFFFFFFFFFFFFD ∨
        ∃ cause, repeatedDisassembly.ending = .failed ⟨past, repeatedMemory.read past, cause⟩ ∧
          past < 0xFFFFFFFFFFFFFFFD ∧
          (cause = .opcodeUnknown ↔ table.decode? (repeatedMemory.read past) = none) ∧
          (cause = .truncated ↔ ∃ e, table.decode? (repeatedMemory.read past) = some e ∧
            (0xFFFFFFFFFFFFFFFD : UInt64).toNat < past.toNat + e.mode.length)) := by
  have hle : (0xFFFFFFFFFFFFFFF2 : UInt64) ≤ 0xFFFFFFFFFFFFFFFD := by decide
  have hstop : (0xFFFFFFFFFFFFFFFD : UInt64).toNat ≤ 2 ^ 64 - 3 := by decide
  have hrun := run_tiles table_architecture repeatedMemory (fun _ => []) hle hstop
  rw [← repeatedDisassembly] at hrun
  exact ⟨⟨table_architecture, hle, hstop⟩, hrun.2⟩

end Mos6502

/-! ## Ranges up to the last address -/

/-- In any range, every row has as many bytes as its instruction, all of them before the end. Where the rows
leave off before the end, at an opcode, the instruction there passes the end: it is reported as truncated
unless it reaches the last address, which leaves an empty slice. -/
theorem Disassembly.run_slices {arch : Architecture} (hsized : arch.table.Sized) (m : Memory)
    (labels : UInt64 → List Text) (start stop : UInt64) :
    let d := run arch m labels start stop
    (∀ r ∈ d.rows, ∃ e, arch.table.decode? (m.read r.address) = some e ∧
      r.bytes = m.slice r.address (r.address + e.mode.length.toUInt64) ∧
      r.bytes.length = e.mode.length ∧ r.address.toNat + e.mode.length ≤ stop.toNat) ∧
    ∃ past : UInt64, d.rows.Tiles start.toNat past.toNat ∧
      (stop ≤ past → d.ending = .reached) ∧
      (past < stop → arch.table.decode? (m.read past) = none →
        d.ending = .failed ⟨past, m.read past, .opcodeUnknown⟩) ∧
      ∀ e, past < stop → arch.table.decode? (m.read past) = some e →
        stop.toNat < past.toNat + e.mode.length ∧
        (past.toNat + e.mode.length < 2 ^ 64 → d.ending = .failed ⟨past, m.read past, .truncated⟩) ∧
        (2 ^ 64 ≤ past.toNat + e.mode.length → d.ending = .overflowed past ∧
          m.slice past (past + e.mode.length.toUInt64) = []) := by
  intro d
  -- The place where the rows leave off decides the ending, of which there is only one kind for each.
  obtain ⟨past, htiles, hrows, hending⟩ := run_explained hsized m labels start stop
  refine ⟨fun r hr => ?_, past, htiles, fun h => hending.unique (.reached h),
    fun h hdecode => hending.unique (.unknown h hdecode), fun e h hdecode => ?_⟩
  · obtain ⟨hshows, hwithin⟩ := hrows r hr
    obtain ⟨e, hdecode, hlength⟩ := hshows.decode?_read
    have hlast := stop.toNat_lt
    have hslice := hshows.bytes_eq_slice (by omega)
    rw [Row.stop, hlength] at hslice
    exact ⟨e, hdecode, hslice, hlength, hlength ▸ hwithin⟩
  · have hover := hending.lt_of_decode? h hdecode
    refine ⟨hover, fun hlast => hending.unique (.truncated h hdecode hover hlast), fun hlast => ?_⟩
    exact ⟨hending.unique (.overflowed h hdecode hlast),
      slice_of_overflow (hsized _ _ hdecode).2 hlast⟩

namespace Mos6502

/-- The opcode of `LDA` with an immediate operand, at the last address but one. -/
def edgeMemory : Memory := (Memory.empty 16 none).load 0xFFFFFFFFFFFFFFFE [0xA9] .program

/-- The range from the last address but one up to the last one. -/
def edgeDisassembly : Disassembly :=
  Disassembly.run architecture edgeMemory (fun _ => []) 0xFFFFFFFFFFFFFFFE 0xFFFFFFFFFFFFFFFF

theorem decode?_edgeMemory :
    table.decode? (edgeMemory.read 0xFFFFFFFFFFFFFFFE) =
      some ⟨Operation.lda.name, Addressing.imm.mode, 0xA9⟩ := by
  have hread : edgeMemory.read 0xFFFFFFFFFFFFFFFE = 0xA9 := by decide +kernel
  have hopcode : (Addressing.imm, 0xA9) ∈ Operation.lda.opcodes := by decide
  rw [hread]
  exact decode?_of_mem_table (e := ⟨Operation.lda.name, Addressing.imm.mode, 0xA9⟩) (mem_table_iff.2 hopcode)

/-- The second byte of the instruction at the last address but one is beyond the end of the range, but the
walk does not report it as truncated: its slice has no byte at all. -/
theorem edgeDisassembly_overflowed :
    ∃ e, table.decode? (edgeMemory.read 0xFFFFFFFFFFFFFFFE) = some e ∧
      (0xFFFFFFFFFFFFFFFF : UInt64).toNat ≤ (0xFFFFFFFFFFFFFFFE : UInt64).toNat + (e.mode.length - 1) ∧
      (edgeMemory.slice 0xFFFFFFFFFFFFFFFE (0xFFFFFFFFFFFFFFFE + e.mode.length.toUInt64)).length ≠
        e.mode.length ∧
      edgeDisassembly = ⟨[], .overflowed 0xFFFFFFFFFFFFFFFE⟩ := by
  refine ⟨_, decode?_edgeMemory, by decide, by decide, ?_⟩
  have hfuel : (0xFFFFFFFFFFFFFFFF : UInt64).toNat - (0xFFFFFFFFFFFFFFFE : UInt64).toNat = 1 := by decide
  rw [edgeDisassembly, Disassembly.run, hfuel, Disassembly.walk, table_architecture, if_neg (by decide)]
  simp only [decode?_edgeMemory]
  rw [if_neg (by decide), if_pos (by decide)]

theorem run_slices_edge :
    architecture.table.Sized ∧
    ∃ past : UInt64, edgeDisassembly.rows.Tiles (0xFFFFFFFFFFFFFFFE : UInt64).toNat past.toNat ∧
      (0xFFFFFFFFFFFFFFFF ≤ past → edgeDisassembly.ending = .reached) ∧
      (past < 0xFFFFFFFFFFFFFFFF → architecture.table.decode? (edgeMemory.read past) = none →
        edgeDisassembly.ending = .failed ⟨past, edgeMemory.read past, .opcodeUnknown⟩) ∧
      ∀ e, past < 0xFFFFFFFFFFFFFFFF → architecture.table.decode? (edgeMemory.read past) = some e →
        (0xFFFFFFFFFFFFFFFF : UInt64).toNat < past.toNat + e.mode.length ∧
        (past.toNat + e.mode.length < 2 ^ 64 →
          edgeDisassembly.ending = .failed ⟨past, edgeMemory.read past, .truncated⟩) ∧
        (2 ^ 64 ≤ past.toNat + e.mode.length → edgeDisassembly.ending = .overflowed past ∧
          edgeMemory.slice past (past + e.mode.length.toUInt64) = []) := by
  have hsized : architecture.table.Sized := table_architecture ▸ sized_table
  have hrun := Disassembly.run_slices hsized edgeMemory (fun _ => []) 0xFFFFFFFFFFFFFFFE 0xFFFFFFFFFFFFFFFF
  rw [← edgeDisassembly] at hrun
  exact ⟨hsized, hrun.2⟩

end Mos6502

end EightBit
