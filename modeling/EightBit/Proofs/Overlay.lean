import Mathlib
import EightBit.Mos6502.Architecture
import EightBit.Proofs.Encoding
import EightBit.Proofs.Layout
import EightBit.Proofs.Memory

/-!
# The overlay of a program

An assembled program is kept in several forms at once: the bytes and marks of its memory, the rows of its
listing, its source map and its bounds. All of them are determined by the leading rows: the last row that
covers an address says what stands there and where it came from.

* `Row.byteOn?`: the byte of a row that counts at an address.
* `Encoding.leading?`: the row that a statement contributes, with its mark.
* `Program.IsOverlay`: a program that is the overlay of its leading rows.
* `SourceMap.getElem?_ofListing`: the source map of some rows.
* `Program.span?_ofListing`: the bounds of rows are those of their source map.
* `Assembler.assemble_isOverlay`: every assembled program is an overlay.
-/

namespace EightBit

namespace Row

/-- The last byte of a row that falls on an address, where addresses are cut to the bits of `mask`. -/
def byteOn? (r : Row) (mask addr : UInt64) : Option UInt8 :=
  EightBit.byteOn? mask addr r.address r.bytes

/-- Whether a byte of a row falls on an address. -/
def covers (r : Row) (mask addr : UInt64) : Bool := (r.byteOn? mask addr).isSome

theorem covers_iff (r : Row) (mask addr : UInt64) :
    r.covers mask addr ↔ ∃ n < r.bytes.length, (r.address + n.toUInt64) &&& mask = addr &&& mask :=
  isSome_byteOn?_iff mask addr r.address r.bytes

/-- Without a mask a row covers the addresses of its bytes. -/
theorem covers_neg_one_iff (r : Row) (addr : UInt64) :
    r.covers (-1) addr ↔ ∃ n < r.bytes.length, r.address + n.toUInt64 = addr := by
  simp [covers_iff]

end Row

namespace Encoding

/-- The leading row of a statement and the mark of its bytes. There is none if the statement cannot be
encoded or has no bytes. -/
def leading? (enc : Encoding) (n : Node) : Option Emission :=
  match enc.emit? n with
  | some (.ok e) => if e.row.bytes.isEmpty then none else some e
  | _ => none

theorem declared?_of_emit? {enc : Encoding} {n : Node} {r : Except AssemblyError Emission}
    (h : enc.emit? n = some r) : n.declared? = none := by
  unfold Node.declared?
  split
  next hn => simp [emit?, hn] at h
  next => rfl

theorem leading?_eq_some {enc : Encoding} {n : Node} {e : Emission} (h : enc.leading? n = some e) :
    enc.emit? n = some (.ok e) ∧ e.row.bytes ≠ [] := by
  unfold leading? at h
  split at h
  next e' hemit =>
    split_ifs at h with hbytes
    cases h
    exact ⟨hemit, fun hnil => hbytes (List.isEmpty_iff.2 hnil)⟩
  next => cases h

/-- The emissions with bytes are the leading rows. -/
theorem filter_emitted (enc : Encoding) (nodes : List Node) :
    ((nodes.filterMap enc.emit?).filterMap Except.toOption).filter (fun e => !e.row.bytes.isEmpty) =
      nodes.filterMap enc.leading? := by
  rw [List.filterMap_filterMap, List.filter_filterMap]
  congr 1
  funext n
  rcases hn : enc.emit? n with _ | (e | e)
  · simp [leading?, hn]
  · simp [leading?, hn, Except.toOption]
  · by_cases he : e.row.bytes = [] <;> simp [leading?, hn, Except.toOption, he]

theorem filterMap_toOption_ok (es : List Emission) :
    (es.map fun e => (.ok e : Except AssemblyError Emission)).filterMap Except.toOption = es := by
  rw [List.filterMap_map]
  exact List.filterMap_some

end Encoding

namespace SourceMap

/-- Locations that are added for a run of addresses. -/
theorem getElem?_foldl_insert (m : SourceMap) (start addr : UInt64) (loc : Location) (n : Nat) :
    ((List.range n).foldl (fun m k => m.insert (start + k.toUInt64) loc) m)[addr]? =
      if ∃ k < n, start + k.toUInt64 = addr then some loc else m[addr]? := by
  induction n with
  | zero => simp
  | succ n ih =>
    rw [List.range_succ, List.foldl_append, List.foldl_cons, List.foldl_nil,
      Std.TreeMap.getElem?_insert, ih]
    by_cases hlast : start + n.toUInt64 = addr
    · rw [if_pos (by simp [hlast]), if_pos ⟨n, Nat.lt_succ_self n, hlast⟩]
    · rw [if_neg (by simpa using hlast)]
      have hiff : (∃ k < n, start + k.toUInt64 = addr) ↔ ∃ k < n + 1, start + k.toUInt64 = addr := by
        constructor
        · rintro ⟨k, hk, heq⟩
          exact ⟨k, by omega, heq⟩
        · rintro ⟨k, hk, heq⟩
          rcases Nat.lt_succ_iff_lt_or_eq.1 hk with hlt | rfl
          · exact ⟨k, hlt, heq⟩
          · exact absurd heq hlast
      simp only [hiff]

/-- A row adds its location at the addresses that it covers. -/
theorem getElem?_addRow (m : SourceMap) (r : Row) (addr : UInt64) :
    (m.addRow r)[addr]? = if r.covers (-1) addr then some r.loc else m[addr]? := by
  rw [addRow, getElem?_foldl_insert]
  simp only [Row.covers_neg_one_iff]

/-- The source map of some rows knows the location of the last row that covers an address. -/
theorem getElem?_ofListing (rows : Listing) (addr : UInt64) :
    (ofListing rows)[addr]? = (rows.reverse.find? (·.covers (-1) addr)).map Row.loc := by
  induction rows using List.reverseRecOn with
  | nil => simp [ofListing]
  | append_singleton rows r ih =>
    have hstep : ofListing (rows ++ [r]) = (ofListing rows).addRow r := by simp [ofListing]
    rw [hstep, getElem?_addRow, ih, List.reverse_concat]
    by_cases hr : r.covers (-1) addr <;> simp [hr]

/-- The addresses of a source map are those of the bytes of its rows. -/
theorem mem_ofListing (rows : Listing) (addr : UInt64) :
    addr ∈ ofListing rows ↔ ∃ r ∈ rows, ∃ n < r.bytes.length, r.address + n.toUInt64 = addr := by
  rw [← Std.TreeMap.isSome_getElem?_iff_mem, getElem?_ofListing, Option.isSome_map,
    List.find?_isSome]
  simp [Row.covers_neg_one_iff]

end SourceMap

namespace Program

/-- The bounds of some rows are reached, and hold for all of them. -/
theorem bounds_spec (rows : Listing) (hrows : rows ≠ []) :
    (∃ r ∈ rows, r.address = (bounds rows).1) ∧ (∀ r ∈ rows, (bounds rows).1 ≤ r.address) ∧
      (∃ r ∈ rows, r.stop = (bounds rows).2) ∧ (∀ r ∈ rows, r.stop ≤ (bounds rows).2) := by
  obtain ⟨first, rest, rfl⟩ := List.exists_cons_of_ne_nil hrows
  induction rest using List.reverseRecOn with
  | nil => simp [bounds]
  | append_singleton rest last ih =>
    obtain ⟨⟨lo, hlo, hloeq⟩, hlower, ⟨hi, hhi, hhieq⟩, hupper⟩ := ih (by simp)
    have hlower' : (bounds (first :: (rest ++ [last]))).1 =
        min (bounds (first :: rest)).1 last.address := by simp [bounds]
    have hupper' : (bounds (first :: (rest ++ [last]))).2 =
        max (bounds (first :: rest)).2 last.stop := by simp [bounds]
    have hmem : ∀ r, r ∈ first :: (rest ++ [last]) ↔ r ∈ first :: rest ∨ r = last := by
      intro r
      simp [or_assoc]
    rw [hlower', hupper']
    refine ⟨?_, ?_, ?_, ?_⟩
    · rcases Std.min_eq_or (a := (bounds (first :: rest)).1) (b := last.address) with h | h
      · exact ⟨lo, (hmem lo).2 (.inl hlo), by rw [h, hloeq]⟩
      · exact ⟨last, (hmem last).2 (.inr rfl), h.symm⟩
    · intro r hr
      rcases (hmem r).1 hr with hr | rfl
      · exact UInt64.le_trans Std.min_le_left (hlower r hr)
      · exact Std.min_le_right
    · rcases (Word.max_spec (bounds (first :: rest)).2 last.stop).2.2 with h | h
      · exact ⟨hi, (hmem hi).2 (.inl hhi), by rw [h, hhieq]⟩
      · exact ⟨last, (hmem last).2 (.inr rfl), h.symm⟩
    · intro r hr
      rcases (hmem r).1 hr with hr | rfl
      · exact UInt64.le_trans (hupper r hr) (Word.max_spec _ _).1
      · exact (Word.max_spec _ _).2.1

section Span

variable {rows : Listing}

/-- A row that does not wrap around counts its addresses up. -/
theorem toNat_add_of_fit {r : Row} (hfit : r.address.toNat + r.bytes.length < 2 ^ 64) {n : Nat}
    (hn : n ≤ r.bytes.length) : (r.address + n.toUInt64).toNat = r.address.toNat + n := by
  rw [UInt64.toNat_add, Word.toNat_toUInt64 (by omega), Nat.mod_eq_of_lt (by omega)]

theorem minKey?_ofListing (hrows : rows ≠ []) (hbytes : ∀ r ∈ rows, r.bytes ≠ [])
    (hfit : ∀ r ∈ rows, r.address.toNat + r.bytes.length < 2 ^ 64) :
    (SourceMap.ofListing rows).minKey? = some (bounds rows).1 := by
  obtain ⟨⟨first, hfirst, hstart⟩, hlower, -⟩ := bounds_spec rows hrows
  have hpos := List.length_pos_of_ne_nil (hbytes first hfirst)
  rw [Std.TreeMap.minKey?_eq_some_iff_mem_and_forall]
  constructor
  · exact (SourceMap.mem_ofListing rows _).2 ⟨first, hfirst, 0, hpos, by simpa using hstart⟩
  · intro addr haddr
    obtain ⟨r, hr, n, hn, rfl⟩ := (SourceMap.mem_ofListing rows addr).1 haddr
    have hle := UInt64.le_iff_toNat_le.1 (hlower r hr)
    rw [Std.isLE_compare, UInt64.le_iff_toNat_le, toNat_add_of_fit (hfit r hr) hn.le]
    omega

theorem maxKey?_ofListing (hrows : rows ≠ []) (hbytes : ∀ r ∈ rows, r.bytes ≠ [])
    (hfit : ∀ r ∈ rows, r.address.toNat + r.bytes.length < 2 ^ 64) :
    (SourceMap.ofListing rows).maxKey? = some ((bounds rows).2 - 1) := by
  obtain ⟨-, -, ⟨last, hlast, hstop⟩, hupper⟩ := bounds_spec rows hrows
  have hpos := List.length_pos_of_ne_nil (hbytes last hlast)
  have hend : ∀ r ∈ rows, r.stop.toNat = r.address.toNat + r.bytes.length := fun r hr =>
    toNat_add_of_fit (hfit r hr) le_rfl
  -- The bound is the end of a row with bytes, so that the address before it is that of its last byte.
  have hlastByte : ((bounds rows).2 - 1).toNat = last.address.toNat + (last.bytes.length - 1) := by
    have hone : (1 : UInt64) ≤ (bounds rows).2 := by
      rw [UInt64.le_iff_toNat_le, ← hstop, hend last hlast]
      exact Nat.le_trans hpos (Nat.le_add_left _ _)
    rw [UInt64.toNat_sub_of_le _ _ hone, ← hstop, hend last hlast, UInt64.toNat_one]
    omega
  rw [Std.TreeMap.maxKey?_eq_some_iff_mem_and_forall]
  constructor
  · refine (SourceMap.mem_ofListing rows _).2 ⟨last, hlast, last.bytes.length - 1, by omega, ?_⟩
    rw [← UInt64.toNat_inj, toNat_add_of_fit (hfit last hlast) (by omega), hlastByte]
  · intro addr haddr
    obtain ⟨r, hr, n, hn, rfl⟩ := (SourceMap.mem_ofListing rows addr).1 haddr
    have hle := UInt64.le_iff_toNat_le.1 (hupper r hr)
    rw [← hstop, hend r hr, hend last hlast] at hle
    rw [Std.isLE_compare, UInt64.le_iff_toNat_le, toNat_add_of_fit (hfit r hr) hn.le, hlastByte]
    omega

/-- The bounds of rows that do not wrap around are the span of their source map. -/
theorem span?_ofListing (hrows : rows ≠ []) (hbytes : ∀ r ∈ rows, r.bytes ≠ [])
    (hfit : ∀ r ∈ rows, r.address.toNat + r.bytes.length < 2 ^ 64) :
    (SourceMap.ofListing rows).span? = some (bounds rows) := by
  simp [SourceMap.span?, minKey?_ofListing hrows hbytes hfit, maxKey?_ofListing hrows hbytes hfit]

end Span

section

variable (arch : Architecture) (m : Memory)

/-- Emissions without bytes leave the memory as it is. -/
theorem memory_ofEmissions (es : List Emission) :
    (ofEmissions arch m es).memory =
      (es.filter fun e => !e.row.bytes.isEmpty).foldl
        (fun m e => m.load e.row.address e.row.bytes e.mark) m := by
  rw [List.foldl_filter]
  refine congrArg (fun f => es.foldl f m) ?_
  funext m e
  cases hbytes : e.row.bytes <;> simp [Memory.load]

/-- What one load keeps is kept by any number of them. -/
theorem map_foldl_load {α : Type} {g : Memory → α}
    (hg : ∀ m addr bytes mark, g (Memory.load m addr bytes mark) = g m) (es : List Emission) :
    g (es.foldl (fun m e => m.load e.row.address e.row.bytes e.mark) m) = g m := by
  induction es generalizing m with
  | nil => rfl
  | cons e rest ih => rw [List.foldl_cons, ih, hg]

theorem mask_foldl_load (es : List Emission) :
    (es.foldl (fun m e => m.load e.row.address e.row.bytes e.mark) m).mask = m.mask :=
  map_foldl_load m Memory.mask_load es

/-- A byte of memory after some loads: what the last row says that covers it, and else what stood there
before. -/
theorem read_foldl_load (es : List Emission) (addr : UInt64) :
    (es.foldl (fun m e => m.load e.row.address e.row.bytes e.mark) m).read addr =
      (es.reverse.findSome? fun e => e.row.byteOn? m.mask addr).getD (m.read addr) := by
  induction es using List.reverseRecOn with
  | nil => rfl
  | append_singleton es e ih =>
    rw [List.foldl_append, List.foldl_cons, List.foldl_nil, Memory.read_load, mask_foldl_load, ih,
      List.reverse_concat, List.findSome?_cons, Row.byteOn?]
    cases EightBit.byteOn? m.mask addr e.row.address e.row.bytes <;> rfl

/-- A mark of memory after some loads: that of the last row that covers it, and else the one before. -/
theorem markAt_foldl_load (es : List Emission) (addr : UInt64) :
    (es.foldl (fun m e => m.load e.row.address e.row.bytes e.mark) m).markAt addr =
      ((es.reverse.find? fun e => e.row.covers m.mask addr).map Emission.mark).getD (m.markAt addr) := by
  induction es using List.reverseRecOn with
  | nil => rfl
  | append_singleton es e ih =>
    rw [List.foldl_append, List.foldl_cons, List.foldl_nil, Memory.markAt_load, mask_foldl_load, ih,
      List.reverse_concat, List.find?_cons, Row.covers, Row.byteOn?]
    cases EightBit.byteOn? m.mask addr e.row.address e.row.bytes <;> rfl

end

end Program

namespace Tree

variable {arch : Architecture} {origin : UInt64}

/-- A statement with bytes that is not larger than a quarter of the words does not wrap around them, where
addresses are shorter than words. -/
theorem row_lt_of_isBounded {t : Tree} (ht : ∀ n ∈ t.nodes, n.IsBounded arch)
    (hwidth : arch.addressWidth < 64) (hsize : ∀ n ∈ t.nodes, n.size < 2 ^ 62) {enc : Encoding} {n : Node}
    {e : Emission} (hn : n ∈ (t.layout arch origin).1.nodes) (he : enc.leading? n = some e) :
    e.row.address.toNat + e.row.bytes.length < 2 ^ 64 := by
  obtain ⟨hemit, hbytes⟩ := Encoding.leading?_eq_some he
  obtain ⟨haddr, -, hlen⟩ := Encoding.emit?_eq_ok hemit
  obtain ⟨k, hk, hsame⟩ := exists_of_mem_layout hn
  have hsmall : n.size < 2 ^ 62 := by
    rw [Node.size, ← hsame]
    exact hsize k hk
  -- Alignment may move it behind the address space, but by no more than it has bytes.
  have hroom : n.element.boundary ≤ max n.size 1 ∧ e.row.bytes.length ≤ max n.size 1 := by
    rcases hlen with hlen | ⟨hkind, hlen, -⟩
    · have hpos := List.length_pos_of_ne_nil hbytes
      have hle := Element.boundary_le_size (by rwa [hlen] at hpos : 0 < n.element.size)
      exact ⟨Nat.le_trans hle (Nat.le_max_left _ _), hlen ▸ Nat.le_max_left _ _⟩
    · rw [Element.boundary_of_kind_instruction hkind, hlen]
      exact ⟨Nat.le_max_right _ _, Nat.le_max_right _ _⟩
  have hbound : n.addr.toNat < 2 ^ arch.addressWidth + n.element.boundary := by
    have hrun := Layout.bounded_run hwidth origin t.labels ht
    rw [nodes_layout] at hn
    exact hrun.isBounded_nodes n hn (Encoding.declared?_of_emit? hemit)
  have hspace : 2 ^ arch.addressWidth ≤ 2 ^ 63 := Nat.pow_le_pow_right (by omega) (by omega)
  rw [haddr]
  clear hlen
  omega

theorem row_lt_of_leading? {t : Tree} (ht : t.Unplaced) (hwidth : arch.addressWidth < 64)
    (hsize : ∀ n ∈ t.nodes, n.size < 2 ^ 62) {enc : Encoding} {n : Node} {e : Emission}
    (hn : n ∈ (t.layout arch origin).1.nodes) (he : enc.leading? n = some e) :
    e.row.address.toNat + e.row.bytes.length < 2 ^ 64 :=
  row_lt_of_isBounded (fun n hn => n.isBounded_of_address arch (ht.nodes n hn)) hwidth hsize hn he

end Tree

/-- A program whose rows, bytes, marks and source map over a memory are the overlay of its leading rows. -/
structure Program.IsOverlay (prog : Program) (m : Memory) (leading : List Emission) : Prop where
  /-- The rows are the leading rows. -/
  rows : prog.rows = leading.map Emission.row
  /-- The last row that covers an address says what stands there. -/
  bytes : ∀ addr, prog.memory.read addr =
    (leading.reverse.findSome? fun e => e.row.byteOn? m.mask addr).getD (m.read addr)
  /-- The last row that covers an address says where its byte came from. -/
  marks : ∀ addr, prog.memory.markAt addr =
    ((leading.reverse.find? fun e => e.row.covers m.mask addr).map Emission.mark).getD (m.markAt addr)
  /-- The source map knows the addresses of the bytes of rows, which are not cut to the memory. -/
  keys : ∀ addr, addr ∈ prog.sourceMap ↔
    ∃ r ∈ prog.rows, ∃ n < r.bytes.length, r.address + n.toUInt64 = addr
  /-- The source map knows the location of the last row that covers an address. -/
  locations : ∀ addr, prog.sourceMap[addr]? =
    (prog.rows.reverse.find? fun r => r.covers (-1) addr).map Row.loc

theorem Program.isOverlay_ofEmissions (arch : Architecture) (m : Memory) (es : List Emission) :
    (ofEmissions arch m es).IsOverlay m (es.filter fun e => !e.row.bytes.isEmpty) where
  rows := List.filter_map
  bytes addr := by rw [memory_ofEmissions, read_foldl_load]
  marks addr := by rw [memory_ofEmissions, markAt_foldl_load]
  keys := SourceMap.mem_ofListing _
  locations := SourceMap.getElem?_ofListing _

namespace Tree

/-- The program of a tree is the overlay of the leading rows of its statements. -/
theorem isOverlay_assemble (t : Tree) (arch : Architecture) (origin : UInt64) (wrapBranches : Bool)
    (m : Memory) :
    (t.assemble arch origin wrapBranches m).program.IsOverlay m ((t.layout arch origin).1.nodes.filterMap
      (Encoding.leading? { arch, wrapBranches, labels := (t.layout arch origin).1.labels })) := by
  rw [← Encoding.filter_emitted]
  exact Program.isOverlay_ofEmissions arch m _

/-- Every row of a program is the leading row of a statement. -/
theorem exists_leading_of_mem_rows {t : Tree} {arch : Architecture} {origin : UInt64} {wrapBranches : Bool}
    {m : Memory} {r : Row} (hr : r ∈ (t.assemble arch origin wrapBranches m).program.rows) :
    ∃ n ∈ (t.layout arch origin).1.nodes, ∃ (enc : Encoding) (e : Emission),
      enc.leading? n = some e ∧ e.row = r := by
  rw [(t.isOverlay_assemble arch origin wrapBranches m).rows] at hr
  obtain ⟨e, he, rfl⟩ := List.mem_map.1 hr
  obtain ⟨n, hn, hleading⟩ := List.mem_filterMap.1 he
  exact ⟨n, hn, _, e, hleading, rfl⟩

end Tree

namespace Assembler

/-- A program is the overlay of its leading rows in all its forms: a statement that cannot be encoded
leaves no trace in any of them, and the last of the other rows that covers an address counts. The bounds
of the program are those of its source map, since rows below the size limit of a machine do not wrap
around the words. -/
theorem assemble_isOverlay (p a : Assembler) (name text : Text) (m : Memory)
    (herrors : (p.parse name text).tree.errors = []) :
    ∃ out, a.assemble (p.parse name text).tree m = some out ∧
      out.program.IsOverlay m (out.tree.nodes.filterMap (Encoding.leading?
        { arch := a.arch, wrapBranches := a.wrapBranches, labels := out.tree.labels })) ∧
      (a.arch.addressWidth < 64 → (∀ n ∈ (p.parse name text).tree.nodes, n.size < 2 ^ 62) →
        out.program.rows ≠ [] →
        out.program.sourceMap.span? = some (out.program.start, out.program.stop)) := by
  have hunplaced := p.unplaced_parse name text
  generalize (p.parse name text).tree = t at herrors hunplaced ⊢
  refine ⟨t.assemble a.arch a.origin a.wrapBranches m, if_pos (List.isEmpty_iff.2 herrors), ?_⟩
  set enc : Encoding :=
    { arch := a.arch, wrapBranches := a.wrapBranches, labels := (t.layout a.arch a.origin).1.labels }
  have hoverlay : (t.assemble a.arch a.origin a.wrapBranches m).program.IsOverlay m
      ((t.layout a.arch a.origin).1.nodes.filterMap enc.leading?) := by
    rw [← Encoding.filter_emitted]
    exact Program.isOverlay_ofEmissions a.arch m _
  refine ⟨hoverlay, fun hwidth hsize hne => ?_⟩
  have hleading : ∀ r ∈ (t.assemble a.arch a.origin a.wrapBranches m).program.rows,
      ∃ n ∈ (t.layout a.arch a.origin).1.nodes, ∃ e, enc.leading? n = some e ∧ e.row = r := by
    intro r hr
    rw [hoverlay.rows] at hr
    obtain ⟨e, he, rfl⟩ := List.mem_map.1 hr
    obtain ⟨n, hn, hne⟩ := List.mem_filterMap.1 he
    exact ⟨n, hn, e, hne, rfl⟩
  refine Program.span?_ofListing hne ?_ ?_
  · intro r hr
    obtain ⟨n, -, e, he, rfl⟩ := hleading r hr
    exact (Encoding.leading?_eq_some he).2
  · intro r hr
    obtain ⟨n, hn, e, he, rfl⟩ := hleading r hr
    exact Tree.row_lt_of_leading? hunplaced hwidth hsize hn he

/-- Rows that overlap and pass the top of the memory, with a branch that cannot be encoded. -/
def straddlingSource : Text :=
  "* = $FFFF\n LDA #$01\n.byte \"\"\n* = $FFFE\n.word $1234, $5678\n BNE $4000\n"

theorem assemble_isOverlay_straddling :
    ((ofArchitecture Mos6502.architecture).parse "demo" straddlingSource).tree.errors = [] ∧
    ∃ out, (ofArchitecture Mos6502.architecture).assemble
        ((ofArchitecture Mos6502.architecture).parse "demo" straddlingSource).tree
        (.empty 16 none) = some out ∧
      out.program.IsOverlay (.empty 16 none) (out.tree.nodes.filterMap (Encoding.leading?
        { arch := Mos6502.architecture, wrapBranches := false, labels := out.tree.labels })) ∧
      (out.program.rows ≠ [] →
        out.program.sourceMap.span? = some (out.program.start, out.program.stop)) := by
  have hcheck : ((ofArchitecture Mos6502.architecture).parse "demo" straddlingSource).tree.errors = [] ∧
      ∀ n ∈ ((ofArchitecture Mos6502.architecture).parse "demo" straddlingSource).tree.nodes,
        n.size < 2 ^ 62 := by
    decide +kernel
  obtain ⟨herrors, hsize⟩ := hcheck
  obtain ⟨out, hout, hoverlay, hspan⟩ := assemble_isOverlay (ofArchitecture Mos6502.architecture)
    (ofArchitecture Mos6502.architecture) "demo" straddlingSource (.empty 16 none) herrors
  exact ⟨herrors, out, hout, hoverlay, hspan (by decide) hsize⟩

end Assembler

end EightBit
