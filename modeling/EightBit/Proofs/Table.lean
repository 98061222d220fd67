import Mathlib
import EightBit.Mos6502.Architecture

/-!
# Entries of instruction tables

Every entry of a table comes from one of the mnemonics that it was built from. For the 6502 this means that
an entry is an instruction in one of the addressing modes that it has an opcode for.

* `Table.mem_entries_build`: where the entries of a table come from.
* `Table.addAll_induction`: what names and entries with free opcodes keep holds of every table.
* `Table.named_build`, `Table.decodes_build`: mnemonics are known, and opcodes are found.
* `Mos6502.exists_of_mem_table`, `Mos6502.exists_of_decode?`: the entries of the 6502.
* `Mos6502.lookup?_of_mem_table`: an entry of the 6502 is found by its mnemonic and mode.
-/

namespace EightBit

namespace Table

/-- An entry that is added has the name of its mnemonic and the opcode of its mode. -/
theorem mem_entries_addEntries {name : Text} {opcodes : List (Mode × UInt8)} {modes : List Mode}
    {t : Table} {e : Entry} (h : e ∈ (addEntries name opcodes modes t).1.entries) :
    e ∈ t.entries ∨ e.mnemonic = name ∧ opcodes.lookup e.mode = some e.opcode := by
  induction modes generalizing t with
  | nil => exact .inl h
  | cons mode modes ih =>
    rw [addEntries] at h
    split at h
    next => exact ih h
    next opcode hopcode =>
      simp only at h
      split at h
      · exact .inl h
      · rcases ih h with hadded | hlater
        · rcases List.mem_append.1 hadded with hold | hnew
          · exact .inl hold
          · rw [List.mem_singleton.1 hnew]
            exact .inr ⟨rfl, hopcode⟩
        · exact .inr hlater

theorem mem_entries_addMnemonic {modes : List Mode} {m : Mnemonic} {t : Table} {e : Entry}
    (h : e ∈ (addMnemonic modes m t).1.entries) :
    e ∈ t.entries ∨ e.mnemonic = m.name.toUpper ∧ m.opcodes.lookup e.mode = some e.opcode := by
  have hstep : ∀ {names : List Text} {t' : Table} {err : Option TableError},
      addEntries m.name.toUpper m.opcodes modes { t with names } = (t', err) → e ∈ t'.entries →
        e ∈ t.entries ∨ e.mnemonic = m.name.toUpper ∧ m.opcodes.lookup e.mode = some e.opcode := by
    intro names t' err hadd hmem
    have hmem' : e ∈ (addEntries m.name.toUpper m.opcodes modes { t with names }).1.entries := by
      rw [hadd]
      exact hmem
    exact mem_entries_addEntries (t := { t with names }) hmem'
  -- Entries are added before a conflict is found, so that an error keeps those already there.
  unfold addMnemonic at h
  simp only at h
  split at h
  · exact .inl h
  · split at h
    next hadd => exact hstep hadd h
    next hadd => exact hstep hadd h

theorem mem_entries_addAll {modes : List Mode} {ms : List Mnemonic} {t : Table} {e : Entry}
    (h : e ∈ (addAll modes ms t).1.entries) :
    e ∈ t.entries ∨ ∃ m ∈ ms, e.mnemonic = m.name.toUpper ∧ m.opcodes.lookup e.mode = some e.opcode := by
  induction ms generalizing t with
  | nil => exact .inl h
  | cons m ms ih =>
    have hstep : ∀ {t' : Table} {err : Option TableError}, addMnemonic modes m t = (t', err) →
        e ∈ t'.entries → e ∈ t.entries ∨
          ∃ k ∈ m :: ms, e.mnemonic = k.name.toUpper ∧ k.opcodes.lookup e.mode = some e.opcode := by
      intro t' err hadd hmem
      have hmem' : e ∈ (addMnemonic modes m t).1.entries := by rw [hadd]; exact hmem
      exact (mem_entries_addMnemonic hmem').imp_right fun hm => ⟨m, List.mem_cons_self, hm⟩
    rw [addAll] at h
    split at h
    next hadd => exact hstep hadd h
    next hadd =>
      rcases ih h with hold | ⟨k, hk, hentry⟩
      · exact hstep hadd hold
      · exact .inr ⟨k, List.mem_cons_of_mem m hk, hentry⟩

/-- The entries of a table come from its mnemonics. -/
theorem mem_entries_build {modes : List Mode} {ms : List Mnemonic} {e : Entry}
    (h : e ∈ (build modes ms).1.entries) :
    ∃ m ∈ ms, e.mnemonic = m.name.toUpper ∧ m.opcodes.lookup e.mode = some e.opcode :=
  (mem_entries_addAll h).resolve_left (by simp)

theorem mem_of_lookup? {t : Table} {mnemonic : Text} {mode : Mode} {e : Entry}
    (h : t.lookup? mnemonic mode = some e) : e ∈ t.entries := List.mem_of_find?_eq_some h

/-! ## What holds of every table -/

section Induction

variable {P : Table → Prop} (hname : ∀ t name, P t → P { t with names := t.names ++ [name] })
  (hentry : ∀ t e, P t → e.mnemonic ∈ t.names → t.decode? e.opcode = none →
    P { t with entries := t.entries ++ [e] })

include hentry

theorem addEntries_induction (name : Text) (opcodes : List (Mode × UInt8)) (modes : List Mode) {t : Table}
    (hmem : name ∈ t.names) (ht : P t) : P (addEntries name opcodes modes t).1 := by
  induction modes generalizing t with
  | nil => exact ht
  | cons mode modes ih =>
    rw [addEntries]
    split
    next => exact ih hmem ht
    next opcode _ =>
      simp only
      split
      next => exact ht
      next hfree => exact ih hmem (hentry t ⟨name, mode, opcode⟩ ht hmem hfree)

include hname

theorem addMnemonic_induction (modes : List Mode) (m : Mnemonic) {t : Table} (ht : P t) :
    P (addMnemonic modes m t).1 := by
  have hadd := addEntries_induction hentry m.name.toUpper m.opcodes modes (by simp)
    (hname t m.name.toUpper ht)
  unfold addMnemonic
  simp only
  split
  · exact ht
  · split
    next heq => rwa [heq] at hadd
    next heq => rwa [heq] at hadd

theorem addAll_induction (modes : List Mode) (ms : List Mnemonic) {t : Table} (ht : P t) :
    P (addAll modes ms t).1 := by
  induction ms generalizing t with
  | nil => exact ht
  | cons m ms ih =>
    have hstep := addMnemonic_induction hname hentry modes m ht
    rw [addAll]
    split
    next heq => rwa [heq] at hstep
    next heq =>
      rw [heq] at hstep
      exact ih hstep

end Induction

/-- The mnemonics of all entries are known. -/
def Named (t : Table) : Prop := ∀ e ∈ t.entries, e.mnemonic ∈ t.names

theorem named_build (modes : List Mode) (ms : List Mnemonic) : (build modes ms).1.Named := by
  refine addAll_induction (P := Named) ?_ ?_ modes ms fun _ he => absurd he List.not_mem_nil
  · exact fun t name ht e he => List.mem_append_left _ (ht e he)
  · intro t e ht hmem _ k hk
    rcases List.mem_append.1 hk with hk | hk
    · exact ht k hk
    · rwa [List.mem_singleton.1 hk]

/-- Every entry is found by its opcode. -/
def Decodes (t : Table) : Prop := ∀ e ∈ t.entries, t.decode? e.opcode = some e

theorem decodes_build (modes : List Mode) (ms : List Mnemonic) : (build modes ms).1.Decodes := by
  refine addAll_induction (P := Decodes) ?_ ?_ modes ms fun _ he => absurd he List.not_mem_nil
  · exact fun t name ht => ht
  · intro t e ht _ hfree k hk
    -- An entry is added only if its opcode is free, so that none is hidden by another one.
    rw [decode?, List.find?_append]
    rcases List.mem_append.1 hk with hk | hk
    · have hfound := ht k hk
      rw [decode?] at hfound
      rw [hfound, Option.some_or]
    · rw [List.mem_singleton.1 hk]
      rw [decode?] at hfree
      simp [hfree]

end Table

namespace Mos6502

theorem table_architecture : architecture.table = table := by simp only [architecture]

/-- Mnemonics are written in capitals. -/
theorem Operation.toUpper_name (op : Operation) : op.name.toUpper = op.name := by
  cases op <;> rfl

/-- An instruction is found by its mnemonic. -/
theorem Operation.ofName?_name (op : Operation) : Operation.ofName? op.name = some op := by
  cases op <;> rfl

theorem Operation.name_injective : Function.Injective Operation.name := by
  intro op op' h
  have hsame := congrArg Operation.ofName? h
  rw [op.ofName?_name, op'.ofName?_name] at hsame
  exact Option.some.inj hsame

theorem Addressing.mode_injective : Function.Injective Addressing.mode := by
  intro a a' h
  have hsame := congrArg Addressing.ofMode? h
  rw [ofMode?_mode, ofMode?_mode] at hsame
  exact Option.some.inj hsame

/-- An instruction has at most one opcode for a mode. -/
theorem Operation.opcodes_unique (op : Operation) {a : Addressing} {b b' : UInt8} (h : (a, b) ∈ op.opcodes)
    (h' : (a, b') ∈ op.opcodes) : b = b' := by
  have hnodup : (op.opcodes.map Prod.fst).Nodup := by cases op <;> decide
  exact congrArg Prod.snd (List.inj_on_of_nodup_map hnodup h h' rfl)

/-- An entry of the 6502 is an instruction in one of its addressing modes. -/
theorem exists_of_mem_table {e : Entry} (h : e ∈ table.entries) :
    ∃ op : Operation, ∃ a, (a, e.opcode) ∈ op.opcodes ∧ e = ⟨op.name, a.mode, e.opcode⟩ := by
  rw [table] at h
  obtain ⟨m, hm, hname, hlookup⟩ := Table.mem_entries_build h
  obtain ⟨op, -, rfl⟩ := List.mem_map.1 hm
  obtain ⟨before, after, hopcodes, -⟩ := List.lookup_eq_some_iff.1 hlookup
  have hmem : (e.mode, e.opcode) ∈ op.mnemonic.opcodes := by simp [hopcodes]
  obtain ⟨⟨a, opcode⟩, hpair, heq⟩ := List.mem_map.1 hmem
  obtain ⟨hmode, rfl⟩ := Prod.mk.inj heq
  refine ⟨op, a, hpair, ?_⟩
  obtain ⟨mnemonic, mode, opcode⟩ := e
  simp only at hname hmode
  rw [hname, hmode, Operation.mnemonic, op.toUpper_name]

/-- A byte is the opcode of the instruction that it decodes to. -/
theorem exists_of_decode? {b : UInt8} {e : Entry} (h : table.decode? b = some e) :
    ∃ op : Operation, ∃ a, (a, b) ∈ op.opcodes ∧ e = ⟨op.name, a.mode, b⟩ := by
  unfold Table.decode? at h
  have hb : e.opcode = b := by simpa using List.find?_some h
  obtain ⟨op, a, hopcode, he⟩ := exists_of_mem_table (List.mem_of_find?_eq_some h)
  rw [hb] at hopcode he
  exact ⟨op, a, hopcode, he⟩

theorem mem_opcodes_of_mem_table {op : Operation} {a : Addressing} {b : UInt8}
    (h : ⟨op.name, a.mode, b⟩ ∈ table.entries) : (a, b) ∈ op.opcodes := by
  obtain ⟨op', a', hopcode, heq⟩ := exists_of_mem_table h
  obtain rfl : op = op' := Operation.name_injective (congrArg Entry.mnemonic heq)
  obtain rfl : a = a' := Addressing.mode_injective (congrArg Entry.mode heq)
  exact hopcode

/-- What a lookup by an instruction and a mode finds is an opcode of the instruction. -/
theorem exists_of_lookup? {op : Operation} {a : Addressing} {e : Entry}
    (h : table.lookup? op.name a.mode = some e) : ∃ b, (a, b) ∈ op.opcodes ∧ e = ⟨op.name, a.mode, b⟩ := by
  unfold Table.lookup? at h
  obtain ⟨mnemonic, mode, opcode⟩ := e
  obtain ⟨rfl, rfl⟩ : mnemonic = op.name ∧ mode = a.mode := by
    simpa [op.toUpper_name] using List.find?_some h
  exact ⟨opcode, mem_opcodes_of_mem_table (List.mem_of_find?_eq_some h), rfl⟩

/-- An entry of the 6502 is found by its mnemonic and mode. -/
theorem lookup?_of_mem_table {op : Operation} {a : Addressing} {b : UInt8}
    (h : ⟨op.name, a.mode, b⟩ ∈ table.entries) :
    table.lookup? op.name a.mode = some ⟨op.name, a.mode, b⟩ := by
  cases hfound : table.lookup? op.name a.mode with
  | none =>
    unfold Table.lookup? at hfound
    have hne := List.find?_eq_none.1 hfound _ h
    simp [op.toUpper_name] at hne
  | some e =>
    obtain ⟨b', hopcode, rfl⟩ := exists_of_lookup? hfound
    rw [op.opcodes_unique hopcode (mem_opcodes_of_mem_table h)]

/-- An entry of the 6502 is found by its opcode. -/
theorem decode?_of_mem_table {e : Entry} (h : e ∈ table.entries) : table.decode? e.opcode = some e := by
  have hdecodes : table.Decodes := by
    rw [table]
    exact Table.decodes_build _ _
  exact hdecodes e h

/-- The mnemonic of an entry of the 6502 is known. -/
theorem isKnown_of_mem_table {op : Operation} {mode : Mode} {b : UInt8}
    (h : ⟨op.name, mode, b⟩ ∈ table.entries) : table.isKnown op.name := by
  have hnamed : table.Named := by
    rw [table]
    exact Table.named_build _ _
  have hmem := hnamed _ h
  rw [Table.isKnown, op.toUpper_name]
  exact List.contains_iff_mem.2 hmem

end Mos6502

end EightBit
