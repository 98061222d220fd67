import Mathlib
import EightBit.Emulator
import EightBit.Mos6502.Execution
import EightBit.Proofs.Overlay

/-!
# What is known about an address

Three views of a program tell about an address: the row that is found for it, the location in the source
map and the byte in memory. All of them are read off the places of rows whose bytes fall on the address,
but not off the same one: the row is that of the first place, while the source map and the memory keep
the last one. The source map does not cut addresses to the memory, so the last place may differ as well.

* `Row.placesOn`, `Listing.placesOn`: the places whose bytes fall on an address.
* `Program.AgreesAt`: the three views agree on an address.
* `Program.IsIndexed`: which place each of the views reads.
* `Assembler.assemble_agreesAt_iff`: when the views of an assembled program agree.
* `Assembler.overlapping_not_agreesAt`: a program whose views do not agree.
-/

namespace EightBit

/-- The byte of a run that counts at an address stands at the last place that falls on it. -/
theorem byteOn?_eq_getLast? (mask other addr : UInt64) (bytes : List UInt8) :
    byteOn? mask other addr bytes =
      ((List.range bytes.length).filter fun n =>
        (addr + n.toUInt64) &&& mask = other &&& mask).getLast?.bind (bytes[·]?) := by
  induction bytes generalizing addr with
  | nil => rfl
  | cons b rest ih =>
    have hlater : (fun n => decide ((addr + n.toUInt64) &&& mask = other &&& mask)) ∘ Nat.succ =
        fun n => decide ((addr + 1 + n.toUInt64) &&& mask = other &&& mask) := by
      funext n
      rw [Function.comp_apply, Nat.succ_eq_add_one, add_succ_toUInt64]
    rw [byteOn?, ih, List.length_cons, List.range_succ_eq_map, List.filter_cons, List.filter_map, hlater]
    -- A later place counts if there is one, and the first place otherwise.
    rcases hlast : ((List.range rest.length).filter fun n =>
      (addr + 1 + n.toUInt64) &&& mask = other &&& mask).getLast? with _ | n
    · by_cases hfirst : addr &&& mask = other &&& mask <;>
        simp [hfirst, hlast, List.getLast?_cons]
    · have hn : n < rest.length :=
        List.mem_range.1 (List.mem_filter.1 (List.mem_of_getLast? hlast)).1
      by_cases hfirst : addr &&& mask = other &&& mask <;>
        simp [hfirst, hlast, hn, List.getLast?_cons]

namespace Row

/-- The places of a row whose bytes fall on an address, where addresses are cut to the bits of `mask`. -/
def placesOn (r : Row) (mask addr : UInt64) : List Nat :=
  (List.range r.bytes.length).filter fun n => (r.address + n.toUInt64) &&& mask = addr &&& mask

@[simp] theorem mem_placesOn {r : Row} {mask addr : UInt64} {n : Nat} :
    n ∈ r.placesOn mask addr ↔
      n < r.bytes.length ∧ (r.address + n.toUInt64) &&& mask = addr &&& mask := by
  simp [placesOn]

theorem byteOn?_eq_placesOn (r : Row) (mask addr : UInt64) :
    r.byteOn? mask addr = (r.placesOn mask addr).getLast?.bind (r.bytes[·]?) :=
  byteOn?_eq_getLast? mask addr r.address r.bytes

theorem covers_iff_placesOn (r : Row) (mask addr : UInt64) :
    r.covers mask addr ↔ r.placesOn mask addr ≠ [] := by
  rw [covers_iff, ne_eq, List.eq_nil_iff_forall_not_mem]
  simp

/-- A row with bytes that does not wrap around finds an address at the only place of it. -/
theorem head?_placesOn {r : Row} (hbytes : r.bytes ≠ [])
    (hfit : r.address.toNat + r.bytes.length < 2 ^ 64) (addr : UInt64) :
    (r.placesOn (-1) addr).head? = r.index? addr := by
  have hsize : max r.bytes.length 1 = r.bytes.length :=
    Nat.max_eq_left (List.length_pos_of_ne_nil hbytes)
  have hstop := Program.toNat_add_of_fit hfit le_rfl
  rw [placesOn, List.head?_filter, index?, hsize]
  split_ifs with hin
  · obtain ⟨hle, hlt⟩ := hin
    rw [UInt64.lt_iff_toNat_lt, hstop] at hlt
    have hoffset := UInt64.toNat_sub_of_le _ _ hle
    rw [UInt64.le_iff_toNat_le] at hle
    rw [List.find?_range_eq_some]
    refine ⟨by simp, List.mem_range.2 (by omega), ?_⟩
    -- The bytes in front have smaller addresses, as the row does not wrap around.
    intro k hk
    have hne : (r.address + k.toUInt64).toNat ≠ addr.toNat := by
      rw [Program.toNat_add_of_fit hfit (by omega)]
      omega
    simpa [← UInt64.toNat_inj] using hne
  · rw [List.find?_eq_none]
    intro n hn hfalls
    have hlen := List.mem_range.1 hn
    have heq : r.address + n.toUInt64 = addr := by simpa using hfalls
    apply hin
    rw [← heq, UInt64.le_iff_toNat_le, UInt64.lt_iff_toNat_lt, hstop,
      Program.toNat_add_of_fit hfit hlen.le]
    omega

end Row

namespace Listing

/-- The places of some rows whose bytes fall on an address, in order, where addresses are cut to the bits
of `mask`. -/
def placesOn (rows : Listing) (mask addr : UInt64) : List (Row × Nat) :=
  rows.flatMap fun r => (r.placesOn mask addr).map fun n => (r, n)

/-- The byte at a place. -/
def byteAt? (place : Row × Nat) : Option UInt8 := place.1.bytes[place.2]?

variable {rows : Listing} {mask addr : UInt64}

theorem mem_placesOn {r : Row} {n : Nat} :
    (r, n) ∈ rows.placesOn mask addr ↔
      r ∈ rows ∧ n < r.bytes.length ∧ (r.address + n.toUInt64) &&& mask = addr &&& mask := by
  simp [placesOn]

/-- Without a mask there are no more places than with one. -/
theorem placesOn_sublist (rows : Listing) (mask addr : UInt64) :
    (rows.placesOn (-1) addr).Sublist (rows.placesOn mask addr) := by
  induction rows with
  | nil => exact .slnil
  | cons r rest ih =>
    refine List.Sublist.append (List.Sublist.map _ ?_) ih
    refine List.monotone_filter_right _ fun n hn => ?_
    simp_all

/-- The row that is found for an address is that of the first place. -/
theorem find?_eq_head? (hbytes : ∀ r ∈ rows, r.bytes ≠ [])
    (hfit : ∀ r ∈ rows, r.address.toNat + r.bytes.length < 2 ^ 64) :
    rows.find? addr = (rows.placesOn (-1) addr).head? := by
  induction rows with
  | nil => rfl
  | cons r rest ih =>
    obtain ⟨hr, hrest⟩ := List.forall_mem_cons.1 hbytes
    obtain ⟨hrfit, hrestfit⟩ := List.forall_mem_cons.1 hfit
    have hhead : (placesOn (r :: rest) (-1) addr).head? =
        ((r.index? addr).map fun n => (r, n)).or (placesOn rest (-1) addr).head? := by
      rw [placesOn, List.flatMap_cons, List.head?_append, List.head?_map, Row.head?_placesOn hr hrfit]
      rfl
    rw [hhead, ← ih hrest hrestfit, find?, List.findSome?_cons]
    cases r.index? addr <;> rfl

theorem getLast?_placesOn_concat (rows : Listing) (r : Row) :
    (placesOn (rows ++ [r]) mask addr).getLast? =
      ((r.placesOn mask addr).getLast?.map fun n => (r, n)).or (rows.placesOn mask addr).getLast? := by
  simp [placesOn, List.getLast?_append]

/-- The last row that covers an address is that of the last place. -/
theorem find?_covers_reverse (rows : Listing) :
    rows.reverse.find? (·.covers mask addr) = (rows.placesOn mask addr).getLast?.map Prod.fst := by
  -- From the end, since the last row is the first one that is looked at.
  induction rows using List.reverseRecOn with
  | nil => rfl
  | append_singleton rows r ih =>
    rw [getLast?_placesOn_concat, List.reverse_concat, List.find?_cons, ih]
    rcases (r.placesOn mask addr).eq_nil_or_concat with hnil | ⟨init, n, hinit⟩
    · have hcovers : r.covers mask addr = false := by
        simpa [hnil] using r.covers_iff_placesOn mask addr
      simp [hcovers, hnil]
    · have hcovers : r.covers mask addr = true := by
        rw [Row.covers_iff_placesOn, hinit]
        simp
      simp [hcovers, hinit]

/-- The byte of the last row that covers an address is that of the last place. -/
theorem findSome?_byteOn?_reverse (rows : Listing) :
    rows.reverse.findSome? (·.byteOn? mask addr) = (rows.placesOn mask addr).getLast?.bind byteAt? := by
  induction rows using List.reverseRecOn with
  | nil => rfl
  | append_singleton rows r ih =>
    rw [getLast?_placesOn_concat, List.reverse_concat, List.findSome?_cons, ih, Row.byteOn?_eq_placesOn]
    rcases hlast : (r.placesOn mask addr).getLast? with _ | n
    · rfl
    · have hn := (Row.mem_placesOn.1 (List.mem_of_getLast? hlast)).1
      simp [byteAt?, hn]

end Listing

namespace Program

/-- The row that is found for an address has there the byte of the memory, and its location is the one in
the source map. -/
def AgreesAt (prog : Program) (addr : UInt64) : Prop :=
  ∃ r n, prog.rows.find? addr = some (r, n) ∧ r.bytes[n]? = some (prog.memory.read addr) ∧
    prog.sourceMap[addr]? = some r.loc

/-- Which of the places that an address has each view of a program reads, over the memory `m`. -/
structure IsIndexed (prog : Program) (m : Memory) : Prop where
  /-- The row that is found is that of the first place. -/
  row : ∀ addr, prog.rows.find? addr = (prog.rows.placesOn (-1) addr).head?
  /-- The source map knows the location of the last place. -/
  location : ∀ addr, prog.sourceMap[addr]? =
    (prog.rows.placesOn (-1) addr).getLast?.map fun place => place.1.loc
  /-- The memory has the byte of the last place, where addresses are cut to the memory. -/
  byte : ∀ addr, prog.memory.read addr =
    ((prog.rows.placesOn m.mask addr).getLast?.bind Listing.byteAt?).getD (m.read addr)

theorem IsOverlay.isIndexed {prog : Program} {m : Memory} {leading : List Emission}
    (h : prog.IsOverlay m leading) (hbytes : ∀ r ∈ prog.rows, r.bytes ≠ [])
    (hfit : ∀ r ∈ prog.rows, r.address.toNat + r.bytes.length < 2 ^ 64) : prog.IsIndexed m where
  row _ := Listing.find?_eq_head? hbytes hfit
  location addr := by
    rw [h.locations, Listing.find?_covers_reverse, Option.map_map]
    rfl
  byte addr := by
    rw [h.bytes, ← Listing.findSome?_byteOn?_reverse, h.rows, ← List.map_reverse, List.findSome?_map]
    rfl

namespace IsIndexed

variable {prog : Program} {m : Memory} (h : prog.IsIndexed m) {addr : UInt64}
include h

/-- An address of the source map has a first place, a last one, and a last one in memory. -/
theorem exists_places (haddr : addr ∈ prog.sourceMap) :
    (∃ first, (prog.rows.placesOn (-1) addr).head? = some first) ∧
      (∃ last, (prog.rows.placesOn (-1) addr).getLast? = some last) ∧
      ∃ stored, (prog.rows.placesOn m.mask addr).getLast? = some stored := by
  have hne : prog.rows.placesOn (-1) addr ≠ [] := by
    intro hnil
    have hsome := Std.TreeMap.isSome_getElem?_iff_mem.2 haddr
    rw [h.location, hnil] at hsome
    cases hsome
  -- What falls on the address falls on it in memory as well.
  have hmasked : prog.rows.placesOn m.mask addr ≠ [] := fun hnil =>
    hne (List.sublist_nil.1 (hnil ▸ Listing.placesOn_sublist prog.rows m.mask addr))
  exact ⟨⟨_, List.head?_eq_some_head hne⟩, ⟨_, List.getLast?_eq_some_getLast hne⟩,
    ⟨_, List.getLast?_eq_some_getLast hmasked⟩⟩

/-- The row that is found for an address of the source map has a byte there. -/
theorem exists_row (haddr : addr ∈ prog.sourceMap) :
    ∃ r n, prog.rows.find? addr = some (r, n) ∧ n < r.bytes.length ∧ r.address + n.toUInt64 = addr := by
  obtain ⟨⟨⟨r, n⟩, hfirst⟩, -⟩ := h.exists_places haddr
  obtain ⟨-, hlen, hplace⟩ := Listing.mem_placesOn.1 (List.mem_of_head? hfirst)
  exact ⟨r, n, by rw [h.row, hfirst], hlen, by simpa using hplace⟩

/-- The views agree if the first place has the location and the byte of the last ones. -/
theorem agreesAt_iff (haddr : addr ∈ prog.sourceMap) :
    prog.AgreesAt addr ↔
      (prog.rows.placesOn (-1) addr).getLast?.map (fun place => place.1.loc) =
        (prog.rows.placesOn (-1) addr).head?.map (fun place => place.1.loc) ∧
      (prog.rows.placesOn m.mask addr).getLast?.bind Listing.byteAt? =
        (prog.rows.placesOn (-1) addr).head?.bind Listing.byteAt? := by
  obtain ⟨⟨⟨r, n⟩, hfirst⟩, -, ⟨⟨s, k⟩, hstored⟩⟩ := h.exists_places haddr
  have hk := (Listing.mem_placesOn.1 (List.mem_of_getLast? hstored)).2.1
  -- What memory holds is the byte at the last place that wraps around to the address.
  have hread : s.bytes[k]? = some (prog.memory.read addr) := by
    rw [h.byte, hstored]
    simp [Listing.byteAt?, hk]
  have hfind : prog.rows.find? addr = some (r, n) := by rw [h.row, hfirst]
  rw [← h.location, hfirst, hstored]
  simp only [AgreesAt, hfind, Option.some.injEq, Prod.mk.injEq, Option.map_some, Option.bind_some,
    Listing.byteAt?, hread]
  constructor
  · rintro ⟨r', n', ⟨rfl, rfl⟩, hbyte, hloc⟩
    exact ⟨hloc, hbyte.symm⟩
  · rintro ⟨hloc, hbyte⟩
    exact ⟨r, n, ⟨rfl, rfl⟩, hbyte.symm, hloc⟩

/-- The views agree on an address on which a single byte of the rows falls. -/
theorem agreesAt_of_length (haddr : addr ∈ prog.sourceMap)
    (hsingle : (prog.rows.placesOn m.mask addr).length = 1) : prog.AgreesAt addr := by
  obtain ⟨place, hplace⟩ := List.length_eq_one_iff.1 hsingle
  have hsub := Listing.placesOn_sublist prog.rows m.mask addr
  obtain ⟨⟨first, hfirst⟩, -⟩ := h.exists_places haddr
  have hunmasked : prog.rows.placesOn (-1) addr = [place] := by
    rw [hplace, List.sublist_singleton] at hsub
    rcases hsub with hnil | hone
    · rw [hnil] at hfirst
      cases hfirst
    · exact hone
  rw [h.agreesAt_iff haddr, hunmasked, hplace]
  exact ⟨rfl, rfl⟩

end IsIndexed

end Program

/-- Statements that are small enough not to wrap around the words make up a program that is indexed. -/
theorem Tree.Unplaced.isIndexed_assemble {t : Tree} (ht : t.Unplaced) {arch : Architecture}
    (hwidth : arch.addressWidth < 64) (hsize : ∀ n ∈ t.nodes, n.size < 2 ^ 62) (origin : UInt64)
    (wrapBranches : Bool) (m : Memory) :
    (t.assemble arch origin wrapBranches m).program.IsIndexed m := by
  refine (t.isOverlay_assemble arch origin wrapBranches m).isIndexed ?_ ?_
  · intro r hr
    obtain ⟨n, -, enc, e, he, rfl⟩ := exists_leading_of_mem_rows hr
    exact (Encoding.leading?_eq_some he).2
  · intro r hr
    obtain ⟨n, hn, enc, e, he, rfl⟩ := exists_leading_of_mem_rows hr
    exact row_lt_of_leading? ht hwidth hsize hn he

namespace Assembler

/-- An address of the source map is always found in a row, and at a byte of it. The row, the source map
and the memory agree on the address if and only if the first place that has it is as good as the last
one: it has the same location, and the same byte as the last place that falls on it in memory. So they
agree wherever a single byte was put. -/
theorem assemble_agreesAt_iff (p a : Assembler) (name text : Text) (m : Memory)
    (hwidth : a.arch.addressWidth < 64) (herrors : (p.parse name text).tree.errors = [])
    (hsize : ∀ n ∈ (p.parse name text).tree.nodes, n.size < 2 ^ 62) :
    ∃ out, a.assemble (p.parse name text).tree m = some out ∧ ∀ addr ∈ out.program.sourceMap,
      (∃ r n, out.program.rows.find? addr = some (r, n) ∧ n < r.bytes.length ∧
        r.address + n.toUInt64 = addr) ∧
      (out.program.AgreesAt addr ↔
        (out.program.rows.placesOn (-1) addr).getLast?.map (fun place => place.1.loc) =
          (out.program.rows.placesOn (-1) addr).head?.map (fun place => place.1.loc) ∧
        (out.program.rows.placesOn m.mask addr).getLast?.bind Listing.byteAt? =
          (out.program.rows.placesOn (-1) addr).head?.bind Listing.byteAt?) ∧
      ((out.program.rows.placesOn m.mask addr).length = 1 → out.program.AgreesAt addr) := by
  have hindexed := (p.unplaced_parse name text).isIndexed_assemble hwidth hsize a.origin a.wrapBranches m
  refine ⟨_, if_pos (List.isEmpty_iff.2 herrors), fun addr haddr => ⟨?_, ?_, ?_⟩⟩
  · exact hindexed.exists_row haddr
  · exact hindexed.agreesAt_iff haddr
  · exact hindexed.agreesAt_of_length haddr

/-- An instruction that is put over a byte. -/
def overlappingSource : Text := " .byte 1\n* = $0200\n NOP\n"

theorem assemble_agreesAt_iff_overlapping :
    let a := ofArchitecture Mos6502.architecture
    let m := a.freshMemory
    (a.parse "over" overlappingSource).tree.errors = [] ∧
    ∃ out, a.assemble (a.parse "over" overlappingSource).tree m = some out ∧
      ∀ addr ∈ out.program.sourceMap,
        (∃ r n, out.program.rows.find? addr = some (r, n) ∧ n < r.bytes.length ∧
          r.address + n.toUInt64 = addr) ∧
        (out.program.AgreesAt addr ↔
          (out.program.rows.placesOn (-1) addr).getLast?.map (fun place => place.1.loc) =
            (out.program.rows.placesOn (-1) addr).head?.map (fun place => place.1.loc) ∧
          (out.program.rows.placesOn m.mask addr).getLast?.bind Listing.byteAt? =
            (out.program.rows.placesOn (-1) addr).head?.bind Listing.byteAt?) ∧
        ((out.program.rows.placesOn m.mask addr).length = 1 → out.program.AgreesAt addr) := by
  intro a m
  have hcheck : (a.parse "over" overlappingSource).tree.errors = [] ∧
      ∀ n ∈ (a.parse "over" overlappingSource).tree.nodes, n.size < 2 ^ 62 := by
    decide +kernel
  obtain ⟨herrors, hsize⟩ := hcheck
  exact ⟨herrors, assemble_agreesAt_iff a a "over" overlappingSource m (by decide) herrors hsize⟩

/-- The instruction stands in memory and in the source map, but the row that is found at its address is
that of the byte below it, and so an emulator takes the address for one without an instruction. -/
theorem overlapping_not_agreesAt :
    let a := ofArchitecture Mos6502.architecture
    ∃ out, a.assemble (a.parse "over" overlappingSource).tree a.freshMemory = some out ∧
      out.errors = [] ∧ out.program.memory.read 0x200 = 0xEA ∧
      out.program.sourceMap[(0x200 : UInt64)]?.map Location.line = some 3 ∧
      (out.program.rows.find? 0x200).map (fun (r, n) => (r.bytes, n, r.loc.line)) = some ([1], 0, 1) ∧
      Emulator.isExecutable { behaviour := Mos6502.behaviour, cpu := .ofArchitecture Mos6502.architecture,
                              program := some out.program } 0x200 = false ∧
      ¬ out.program.AgreesAt 0x200 := by
  intro a
  have hcheck : ∃ out ∈ a.assemble (a.parse "over" overlappingSource).tree a.freshMemory,
      out.errors = [] ∧ out.program.memory.read 0x200 = 0xEA ∧
      out.program.sourceMap[(0x200 : UInt64)]?.map Location.line = some 3 ∧
      (out.program.rows.find? 0x200).map (fun (r, n) => (r.bytes, n, r.loc.line)) = some ([1], 0, 1) ∧
      Emulator.isExecutable { behaviour := Mos6502.behaviour, cpu := .ofArchitecture Mos6502.architecture,
                              program := some out.program } 0x200 = false := by
    decide +kernel
  obtain ⟨out, hout, herrors, hread, hloc, hfind, hexec⟩ := hcheck
  refine ⟨out, hout, herrors, hread, hloc, hfind, hexec, ?_⟩
  rintro ⟨r, n, hrow, hbyte, -⟩
  rw [hrow, Option.map_some, Option.some.injEq] at hfind
  obtain ⟨hbytes, hn, -⟩ : r.bytes = [1] ∧ n = 0 ∧ r.loc.line = 1 := by simpa using hfind
  rw [hbytes, hn, hread] at hbyte
  cases hbyte

end Assembler

end EightBit
