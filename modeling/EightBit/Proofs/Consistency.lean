import Mathlib
import EightBit.Proofs.LetterCase
import EightBit.Proofs.Table

/-!
# Consistent instruction tables

A table is built mnemonic by mnemonic, and for each of them mode by mode, up to the first error. Whatever the
mnemonics are, and whether or not there is an error, the ways into the table agree: an opcode, or a mnemonic with a
mode, leads to the one entry that has it. Without an error the table holds all that the mnemonics call for, in order.

* `Mnemonic.entries`: the entries that a mnemonic calls for.
* `Table.addEntries_eq`, `Table.addMnemonic_cases`, `Table.entries_addAll`: what is added for a mnemonic, and for all.
* `Table.Admits`, `Table.addAll_eq_none_iff`: the mnemonics that are added without an error.
* `Table.IsConsistent`, `Table.isConsistent_build`: opcodes, mnemonics and modes lead to the entries.
* `Table.IsComplete`, `Table.build_isConsistent`: the tables that are built.
* `Mos6502.mem_table_iff`: the entries of the 6502.
-/

namespace EightBit

/-- The entries that a mnemonic calls for, by priority of their modes. -/
def Mnemonic.entries (modes : List Mode) (m : Mnemonic) : List Entry :=
  modes.filterMap fun mode => (m.opcodes.lookup mode).map fun opcode => ⟨m.name.toUpper, mode, opcode⟩

theorem Mnemonic.mem_entries {modes : List Mode} {m : Mnemonic} {e : Entry} :
    e ∈ m.entries modes ↔
      e.mode ∈ modes ∧ e.mnemonic = m.name.toUpper ∧ m.opcodes.lookup e.mode = some e.opcode := by
  simp only [entries, List.mem_filterMap, Option.map_eq_some_iff]
  constructor
  · rintro ⟨mode, hmode, opcode, hopcode, rfl⟩
    exact ⟨hmode, rfl, hopcode⟩
  · rintro ⟨hmode, hname, hopcode⟩
    exact ⟨e.mode, hmode, e.opcode, hopcode, by rw [← hname]⟩

namespace Table

/-! ## What is added -/

/-- A mnemonic adds the first of the entries that it calls for: all of them, or those before one whose opcode is
taken. -/
theorem addEntries_eq (m : Mnemonic) (modes : List Mode) (t : Table) :
    ∃ added rest, m.entries modes = added ++ rest ∧
      (addEntries m.name.toUpper m.opcodes modes t).1 = { t with entries := t.entries ++ added } ∧
      ((addEntries m.name.toUpper m.opcodes modes t).2 = none ↔ rest = []) ∧
      ∀ e ∈ rest.head?, e.opcode ∈ (t.entries ++ added).map Entry.opcode := by
  induction modes generalizing t with
  | nil => exact ⟨[], [], rfl, by simp [addEntries], by simp [addEntries], by simp⟩
  | cons mode modes ih =>
    rw [addEntries, Mnemonic.entries, List.filterMap_cons]
    cases hopcode : m.opcodes.lookup mode with
    | none => exact ih t
    | some opcode =>
      simp only [Option.map_some]
      cases hprior : t.decode? opcode with
      | some prior =>
        refine ⟨[], _, rfl, by simp, by simp, ?_⟩
        rintro e ⟨⟩
        rw [List.append_nil]
        exact List.mem_map.2 ⟨prior, List.mem_of_find?_eq_some hprior, by simpa using List.find?_some hprior⟩
      | none =>
        obtain ⟨added, rest, hentries, htable, hrest, htaken⟩ := ih { t with entries := t.entries ++ [_] }
        refine ⟨_ :: added, rest, congrArg (List.cons _) hentries, htable.trans ?_, hrest, ?_⟩
        · simp
        · simpa using htaken

/-- One mnemonic is refused, or it adds its name and the first of the entries that it calls for: all of them, or those
before one whose opcode is taken. There is no error if it adds all of them and all of its modes are listed. -/
theorem addMnemonic_cases (modes : List Mode) (m : Mnemonic) (t : Table) :
    m.name.toUpper ∈ t.names ∧ addMnemonic modes m t = (t, some (.mnemonicDuplicate m.name.toUpper)) ∨
      m.name.toUpper ∉ t.names ∧ ∃ added rest, m.entries modes = added ++ rest ∧
        (addMnemonic modes m t).1 = ⟨t.names ++ [m.name.toUpper], t.entries ++ added⟩ ∧
        ((addMnemonic modes m t).2 = none ↔ rest = [] ∧ ∀ p ∈ m.opcodes, p.1 ∈ modes) ∧
        ∀ e ∈ rest.head?, e.opcode ∈ (t.entries ++ added).map Entry.opcode := by
  unfold addMnemonic
  simp only [List.contains_iff_mem]
  split_ifs with hname
  · exact .inl ⟨hname, rfl⟩
  · obtain ⟨added, rest, hentries, htable, hrest, htaken⟩ :=
      addEntries_eq m modes { t with names := t.names ++ [m.name.toUpper] }
    refine .inr ⟨hname, added, rest, hentries, ?_⟩
    split
    next t' e hadd =>
      rw [hadd] at htable hrest
      exact ⟨htable, iff_of_false (by simp) fun h => by simpa using hrest.2 h.1, htaken⟩
    next t' hadd =>
      rw [hadd] at htable hrest
      refine ⟨htable, ?_, htaken⟩
      -- The modes are compared with the list only once all entries are there.
      rw [and_iff_right (hrest.1 rfl), Option.map_eq_none_iff, List.find?_eq_none]
      simp

/-- Without an error, mnemonics add all that they call for, one after the other. -/
theorem entries_addAll {modes : List Mode} {ms : List Mnemonic} {t : Table} (h : (addAll modes ms t).2 = none) :
    (addAll modes ms t).1.entries = t.entries ++ ms.flatMap (·.entries modes) := by
  induction ms generalizing t with
  | nil => simp [addAll]
  | cons m ms ih =>
    have hadd := addMnemonic_cases modes m t
    rw [addAll] at h ⊢
    cases hm : addMnemonic modes m t with
    | mk t' err =>
      rw [hm] at hadd h
      cases err with
      | some e => cases h
      | none =>
        obtain ⟨-, hrefused⟩ | ⟨-, added, rest, hentries, rfl, hall, -⟩ := hadd
        · cases hrefused
        · obtain ⟨rfl, -⟩ := hall.1 rfl
          rw [List.append_nil] at hentries
          simp [ih h, hentries]

/-- Mnemonics that can be added to a table: the names and the opcodes that they call for are different from each other
and from those of the table, and their modes are listed. -/
structure Admits (modes : List Mode) (ms : List Mnemonic) (t : Table) : Prop where
  names : (t.names ++ ms.map fun m => m.name.toUpper).Nodup
  opcodes : ((t.entries ++ ms.flatMap (·.entries modes)).map Entry.opcode).Nodup
  listed : ∀ m ∈ ms, ∀ p ∈ m.opcodes, p.1 ∈ modes

/-- A new mnemonic that adds all that it calls for makes no difference to what can be added with it. -/
theorem admits_cons_iff {modes : List Mode} {m : Mnemonic} {ms : List Mnemonic} {t : Table}
    (hlisted : ∀ p ∈ m.opcodes, p.1 ∈ modes) :
    Admits modes (m :: ms) t ↔ Admits modes ms ⟨t.names ++ [m.name.toUpper], t.entries ++ m.entries modes⟩ := by
  constructor
  · rintro ⟨hnames, hopcodes, hmodes⟩
    exact ⟨by simpa using hnames, by simpa using hopcodes, fun k hk => hmodes k (List.mem_cons_of_mem m hk)⟩
  · rintro ⟨hnames, hopcodes, hmodes⟩
    exact ⟨by simpa using hnames, by simpa using hopcodes, List.forall_mem_cons.2 ⟨hlisted, hmodes⟩⟩

/-- An entry is added only if its opcode is free. -/
theorem nodup_opcodes_append (t : Table) (e : Entry) (ht : (t.entries.map Entry.opcode).Nodup)
    (_ : e.mnemonic ∈ t.names) (hfree : t.decode? e.opcode = none) :
    ((t.entries ++ [e]).map Entry.opcode).Nodup := by
  rw [List.map_append, List.map_singleton, ← List.concat_eq_append]
  refine ht.concat fun hmem => ?_
  obtain ⟨k, hk, hsame⟩ := List.mem_map.1 hmem
  exact List.find?_eq_none.1 hfree k hk (by simp [hsame])

/-- Mnemonics are added without an error exactly if a table admits them. -/
theorem addAll_eq_none_iff {modes : List Mode} {ms : List Mnemonic} {t : Table} (hnames : t.names.Nodup)
    (hopcodes : (t.entries.map Entry.opcode).Nodup) : (addAll modes ms t).2 = none ↔ Admits modes ms t := by
  induction ms generalizing t with
  | nil => exact iff_of_true rfl ⟨by simpa using hnames, by simpa using hopcodes, by simp⟩
  | cons m ms ih =>
    have hstep := addMnemonic_induction (P := fun t => (t.entries.map Entry.opcode).Nodup) (fun _ _ ht => ht)
      nodup_opcodes_append modes m hopcodes
    have hadd := addMnemonic_cases modes m t
    rw [addAll]
    cases hm : addMnemonic modes m t with
    | mk t' err =>
      rw [hm] at hadd hstep
      obtain ⟨hname, hrefused⟩ | ⟨hname, added, rest, hentries, rfl, hall, htaken⟩ := hadd
      · cases hrefused
        refine iff_of_false (by simp) fun h => ?_
        exact List.disjoint_of_nodup_append h.names hname (by simp)
      · cases err with
        | none =>
          obtain ⟨rfl, hlisted⟩ := hall.1 rfl
          rw [List.append_nil] at hentries
          rw [admits_cons_iff hlisted, hentries]
          exact ih (List.nodup_append'.2 ⟨hnames, by simp, by simpa using hname⟩) hstep
        | some e =>
          refine iff_of_false (by simp) fun h => ?_
          have hlisted : ∀ p ∈ m.opcodes, p.1 ∈ modes := h.listed m List.mem_cons_self
          cases rest with
          | nil => simpa using hall.2 ⟨rfl, hlisted⟩
          | cons e rest =>
            -- The opcode of the first entry that is missing occurs twice in what is called for.
            have hnodup := h.opcodes
            rw [List.flatMap_cons, hentries] at hnodup
            have hsplit : t.entries ++ (added ++ e :: rest ++ ms.flatMap (·.entries modes)) =
                t.entries ++ added ++ (e :: (rest ++ ms.flatMap (·.entries modes))) := by simp
            rw [hsplit, List.map_append] at hnodup
            exact List.disjoint_of_nodup_append hnodup (htaken e rfl) (by simp)

/-! ## The ways into a table -/

/-- The ways into a table agree. -/
structure IsConsistent (t : Table) : Prop where
  /-- No two entries have the same opcode. -/
  opcodes : (t.entries.map Entry.opcode).Nodup
  /-- An opcode leads to the entry that has it. -/
  decode?_iff : ∀ opcode e, t.decode? opcode = some e ↔ e ∈ t.entries ∧ e.opcode = opcode
  /-- A mnemonic in any letter case and a mode lead to the entry that has both. -/
  lookup?_iff : ∀ mnemonic mode e,
    t.lookup? mnemonic mode = some e ↔ e ∈ t.entries ∧ e.mnemonic = mnemonic.toUpper ∧ e.mode = mode
  /-- Every entry is found both ways. -/
  found : ∀ e ∈ t.entries, t.decode? e.opcode = some e ∧ t.lookup? e.mnemonic e.mode = some e

/-- A mnemonic has at most one opcode for a mode. -/
def IsFunctional (t : Table) : Prop :=
  ∀ e ∈ t.entries, ∀ e' ∈ t.entries, e.mnemonic = e'.mnemonic → e.mode = e'.mode → e.opcode = e'.opcode

theorem nodup_opcodes_build (modes : List Mode) (ms : List Mnemonic) :
    ((build modes ms).1.entries.map Entry.opcode).Nodup :=
  addAll_induction (P := fun t => (t.entries.map Entry.opcode).Nodup) (fun _ _ ht => ht) nodup_opcodes_append modes ms
    (by simp)

/-- The entries of a new mnemonic have its name, so that they do not clash with older ones, and they take their opcodes
from a map. -/
theorem IsFunctional.addMnemonic {t : Table} (h : t.IsFunctional) (hnamed : t.Named) (modes : List Mode)
    (m : Mnemonic) :
    (addMnemonic modes m t).1.IsFunctional ∧ (Table.addMnemonic modes m t).1.Named := by
  obtain ⟨-, heq⟩ | ⟨hname, added, rest, hentries, heq, -⟩ := addMnemonic_cases modes m t
  · rw [heq]
    exact ⟨h, hnamed⟩
  · rw [heq]
    have hadded : ∀ e ∈ added, e.mnemonic = m.name.toUpper ∧ m.opcodes.lookup e.mode = some e.opcode := by
      intro e he
      exact (Mnemonic.mem_entries.1 (hentries ▸ List.mem_append_left rest he)).2
    have hold : ∀ e ∈ t.entries, e.mnemonic ≠ m.name.toUpper := fun e he hsame => hname (hsame ▸ hnamed e he)
    refine ⟨fun e he e' he' hmnemonic hmode => ?_, fun e he => ?_⟩
    -- Both entries are old, one of them is new, or both have their opcodes from the same map.
    · rcases List.mem_append.1 he with he | he <;> rcases List.mem_append.1 he' with he' | he'
      · exact h e he e' he' hmnemonic hmode
      · exact absurd (hmnemonic.trans (hadded e' he').1) (hold e he)
      · exact absurd (hmnemonic.symm.trans (hadded e he).1) (hold e' he')
      · have hsame := (hadded e he).2
        rw [hmode, (hadded e' he').2] at hsame
        exact (Option.some.inj hsame).symm
    · rcases List.mem_append.1 he with he | he
      · exact List.mem_append_left _ (hnamed e he)
      · simp [(hadded e he).1]

theorem IsFunctional.addAll {t : Table} (h : t.IsFunctional) (hnamed : t.Named) (modes : List Mode)
    (ms : List Mnemonic) : (addAll modes ms t).1.IsFunctional := by
  induction ms generalizing t with
  | nil => exact h
  | cons m ms ih =>
    obtain ⟨hstep, hstepNamed⟩ := h.addMnemonic hnamed modes m
    rw [Table.addAll]
    split
    next heq => rwa [heq] at hstep
    next heq =>
      rw [heq] at hstep hstepNamed
      exact ih hstep hstepNamed

theorem isFunctional_build (modes : List Mode) (ms : List Mnemonic) : (build modes ms).1.IsFunctional := by
  have hempty : IsFunctional {} := fun _ he => absurd he List.not_mem_nil
  have hnamed : Named {} := fun _ he => absurd he List.not_mem_nil
  exact hempty.addAll hnamed modes ms

theorem decode?_eq_some_iff {t : Table} (h : t.Decodes) (opcode : UInt8) (e : Entry) :
    t.decode? opcode = some e ↔ e ∈ t.entries ∧ e.opcode = opcode := by
  constructor
  · intro hfound
    exact ⟨List.mem_of_find?_eq_some hfound, by simpa using List.find?_some hfound⟩
  · rintro ⟨he, rfl⟩
    exact h e he

theorem lookup?_eq_some_iff {t : Table} (hdecodes : t.Decodes) (hfunctional : t.IsFunctional) (mnemonic : Text)
    (mode : Mode) (e : Entry) :
    t.lookup? mnemonic mode = some e ↔ e ∈ t.entries ∧ e.mnemonic = mnemonic.toUpper ∧ e.mode = mode := by
  have hfound : ∀ {k : Entry}, t.lookup? mnemonic mode = some k →
      k ∈ t.entries ∧ k.mnemonic = mnemonic.toUpper ∧ k.mode = mode := by
    intro k hk
    exact ⟨mem_of_lookup? hk, by simpa using List.find?_some hk⟩
  refine ⟨hfound, ?_⟩
  rintro ⟨he, hmnemonic, hmode⟩
  cases hlookup : t.lookup? mnemonic mode with
  | none => simpa [hmnemonic, hmode] using List.find?_eq_none.1 hlookup e he
  | some k =>
    -- The entry that is found has the same opcode, and hence it is the same entry.
    obtain ⟨hk, hkmnemonic, hkmode⟩ := hfound hlookup
    have hopcode := hfunctional k hk e he (hkmnemonic.trans hmnemonic.symm) (hkmode.trans hmode.symm)
    have hsame := hdecodes k hk
    rw [hopcode, hdecodes e he] at hsame
    exact hsame.symm

/-- The ways into a table agree, whatever it was built from. -/
theorem isConsistent_build (modes : List Mode) (ms : List Mnemonic) : (build modes ms).1.IsConsistent := by
  have hdecodes := decodes_build modes ms
  have hlookup := lookup?_eq_some_iff hdecodes (isFunctional_build modes ms)
  refine ⟨nodup_opcodes_build modes ms, decode?_eq_some_iff hdecodes, hlookup, fun e he => ⟨hdecodes e he, ?_⟩⟩
  -- Mnemonics are kept in upper case, which is what they are looked up in.
  obtain ⟨m, -, hname, -⟩ := mem_entries_build he
  exact (hlookup e.mnemonic e.mode e).2 ⟨he, by rw [hname, Text.toUpper_toUpper], rfl⟩

/-! ## Tables without errors -/

/-- A table that holds what some mnemonics call for, and nothing else. -/
structure IsComplete (modes : List Mode) (ms : List Mnemonic) (t : Table) : Prop where
  /-- The entries stand mnemonic by mnemonic, and by priority of their modes. -/
  entries : t.entries = ms.flatMap (·.entries modes)
  /-- An entry has the opcode that a mnemonic gives to a mode. -/
  mem_iff : ∀ e, e ∈ t.entries ↔ ∃ m ∈ ms, e.mnemonic = m.name.toUpper ∧ m.opcodes.lookup e.mode = some e.opcode
  /-- There is one entry for every opcode that a mnemonic gives to a mode. -/
  count_eq_one : ∀ m ∈ ms, ∀ mode opcode, m.opcodes.lookup mode = some opcode →
    t.entries.count ⟨m.name.toUpper, mode, opcode⟩ = 1
  /-- No two mnemonics have the same name. -/
  names : (ms.map fun m => m.name.toUpper).Nodup

theorem build_eq_none_iff {modes : List Mode} {ms : List Mnemonic} :
    (build modes ms).2 = none ↔ Admits modes ms {} := addAll_eq_none_iff List.nodup_nil List.nodup_nil

theorem isComplete_build {modes : List Mode} {ms : List Mnemonic} (h : (build modes ms).2 = none) :
    (build modes ms).1.IsComplete modes ms := by
  have hadmits := build_eq_none_iff.1 h
  have hentries : (build modes ms).1.entries = ms.flatMap (·.entries modes) := entries_addAll (t := {}) h
  have hmem : ∀ e, e ∈ (build modes ms).1.entries ↔
      ∃ m ∈ ms, e.mnemonic = m.name.toUpper ∧ m.opcodes.lookup e.mode = some e.opcode := by
    intro e
    simp only [hentries, List.mem_flatMap, Mnemonic.mem_entries]
    refine exists_congr fun m => and_congr_right fun hm => and_iff_right_of_imp fun hgiven => ?_
    obtain ⟨before, after, hopcodes, -⟩ := List.lookup_eq_some_iff.1 hgiven.2
    exact hadmits.listed m hm (e.mode, e.opcode) (by simp [hopcodes])
  refine ⟨hentries, hmem, fun m hm mode opcode hgiven => ?_, hadmits.names⟩
  exact List.count_eq_one_of_mem (nodup_opcodes_build modes ms).of_map ((hmem _).2 ⟨m, hm, rfl, hgiven⟩)

end Table

namespace Mos6502

/-! ## The table of the 6502 -/

theorem Addressing.mem_all (a : Addressing) : a ∈ all := by cases a <;> decide

/-- A mode is looked up by its definition. -/
theorem Addressing.lookup_map_mode (l : List (Addressing × UInt8)) (a : Addressing) :
    (l.map fun (a, opcode) => (a.mode, opcode)).lookup a.mode = l.lookup a := by
  induction l with
  | nil => rfl
  | cons p l ih =>
    obtain ⟨a', opcode⟩ := p
    have hsame : (a.mode == a'.mode) = (a == a') := by
      rw [Bool.eq_iff_iff, beq_iff_eq, beq_iff_eq, mode_injective.eq_iff]
    simp only [List.map_cons, List.lookup_cons, hsame, ih]

/-- No opcode is given twice. -/
theorem Operation.nodup_opcodes :
    (all.flatMap fun op => Addressing.all.filterMap (op.opcodes.lookup ·)).Nodup := by
  have hnodup : ((all.flatMap fun op => Addressing.all.filterMap (op.opcodes.lookup ·)).map UInt8.toNat).Nodup := by
    decide +kernel
  exact hnodup.of_map

theorem admits_mnemonics : Table.Admits Addressing.modes (Operation.all.map Operation.mnemonic) {} where
  names := by
    have hnames : (Operation.all.map Operation.mnemonic).map (fun m => m.name.toUpper) =
        Operation.all.map Operation.name := by
      rw [List.map_map]
      exact List.map_congr_left fun op _ => op.toUpper_name
    rw [List.nil_append, hnames]
    exact List.Nodup.map Operation.name_injective (by decide)
  opcodes := by
    have hopcodes : ∀ op : Operation, (op.mnemonic.entries Addressing.modes).map Entry.opcode =
        Addressing.all.filterMap (op.opcodes.lookup ·) := by
      intro op
      rw [Mnemonic.entries, Addressing.modes, List.filterMap_map, List.map_filterMap]
      refine List.filterMap_congr fun a _ => ?_
      simp [Operation.mnemonic, Addressing.lookup_map_mode, Function.comp_def]
    rw [List.nil_append, List.map_flatMap, List.flatMap_map]
    simpa only [hopcodes] using Operation.nodup_opcodes
  listed := by
    intro m hm p hp
    obtain ⟨op, -, rfl⟩ := List.mem_map.1 hm
    obtain ⟨⟨a, opcode⟩, -, rfl⟩ := List.mem_map.1 hp
    exact List.mem_map_of_mem a.mem_all

/-- The table of the 6502 has all the opcodes that its instructions have, and no others. -/
theorem mem_table_iff {op : Operation} {a : Addressing} {b : UInt8} :
    ⟨op.name, a.mode, b⟩ ∈ table.entries ↔ (a, b) ∈ op.opcodes := by
  refine ⟨mem_opcodes_of_mem_table, fun h => ?_⟩
  have hcomplete := Table.isComplete_build (Table.build_eq_none_iff.2 admits_mnemonics)
  rw [table, hcomplete.mem_iff]
  refine ⟨op.mnemonic, List.mem_map_of_mem (by cases op <;> decide), op.toUpper_name.symm, ?_⟩
  rw [Operation.mnemonic, Addressing.lookup_map_mode]
  obtain ⟨before, after, hopcodes⟩ := List.append_of_mem h
  refine List.lookup_eq_some_iff.2 ⟨before, after, hopcodes, fun p hp => ?_⟩
  -- An instruction has a mode once, so that none of the modes before it is the same.
  have hnodup : (op.opcodes.map Prod.fst).Nodup := by cases op <;> decide
  rw [hopcodes, List.map_append] at hnodup
  rw [bne_iff_ne]
  rintro rfl
  exact List.disjoint_of_nodup_append hnodup (List.mem_map_of_mem hp) (by simp)

end Mos6502

end EightBit
