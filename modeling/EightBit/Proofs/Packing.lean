import Mathlib
import EightBit.Mos6502.Architecture
import EightBit.Proofs.Encoding
import EightBit.Proofs.Layout
import EightBit.Proofs.Overlay

/-!
# Packed programs

Without a choice of the next address, the statements of a source text stand one after the other from the
origin on, with padding only in front of aligned data. The layout decides this from the sizes that
statements announce, and the encoders keep to these sizes, so that rows never overlap and a label in front
of a statement has its address.

* `Packed`: statements that stand one after the other; `extent` is the address after them.
* `Layout.Packing`: what holds during the layout; `Layout.packing_run` shows it for a whole run.
* `Tree.FromSource`: trees obtained by parsing and assembling.
* `Assembler.assemble_isPacked`: a program without errors is packed.
-/

namespace EightBit

/-- The address after statements that stand one after the other from an address on, padding included. -/
def extent (addr : Nat) (nodes : List Node) : Nat :=
  nodes.foldl (fun addr n => roundUp addr n.element.boundary + n.size) addr

/-- Statements stand one after the other from an address on, rounded up where they are aligned. -/
def Packed : Nat → List Node → Prop
  | _, [] => True
  | addr, n :: rest =>
    n.addr.toNat = roundUp addr n.element.boundary ∧ Packed (n.addr.toNat + n.size) rest

@[simp] theorem extent_nil (addr : Nat) : extent addr [] = addr := rfl

theorem extent_cons (addr : Nat) (n : Node) (rest : List Node) :
    extent addr (n :: rest) = extent (roundUp addr n.element.boundary + n.size) rest := rfl

theorem extent_append (addr : Nat) (ns ms : List Node) :
    extent addr (ns ++ ms) = extent (extent addr ns) ms :=
  List.foldl_append

theorem extent_concat (addr : Nat) (ns : List Node) (n : Node) :
    extent addr (ns ++ [n]) = roundUp (extent addr ns) n.element.boundary + n.size :=
  extent_append addr ns [n]

theorem le_extent (addr : Nat) (ns : List Node) : addr ≤ extent addr ns := by
  induction ns generalizing addr with
  | nil => exact Nat.le_refl addr
  | cons n rest ih =>
    calc addr ≤ roundUp addr n.element.boundary := (roundUp_spec addr n.element.boundary_pos).2.1
      _ ≤ roundUp addr n.element.boundary + n.size := Nat.le_add_right _ _
      _ ≤ extent addr (n :: rest) := ih _

/-- Statements without bytes take no room. -/
theorem Element.size_of_not_isStored {e : Element} (h : e.isStored = false) :
    e.boundary = 1 ∧ e.size = 0 := by
  cases e <;> first | exact ⟨rfl, rfl⟩ | cases h

theorem Node.isStored_of_declared? {n : Node} (h : n.declared?.isSome) : n.element.isStored = false := by
  obtain ⟨id, hid⟩ := Option.isSome_iff_exists.1 h
  rw [Node.element_of_declared? hid]
  rfl

theorem filter_isStored_labels {ns : List Node} (h : ∀ n ∈ ns, n.declared?.isSome) :
    ns.filter (·.element.isStored) = [] := by
  rw [List.filter_eq_nil_iff]
  intro n hn
  simp [Node.isStored_of_declared? (h n hn)]

/-- One more statement is packed if it stands at the end of those before it, rounded up. -/
theorem packed_concat (addr : Nat) (ns : List Node) (n : Node) :
    Packed addr (ns ++ [n]) ↔
      Packed addr ns ∧ n.addr.toNat = roundUp (extent addr ns) n.element.boundary := by
  induction ns generalizing addr with
  | nil => simp [Packed]
  | cons m rest ih =>
    rw [List.cons_append, Packed, Packed, ih, extent_cons]
    constructor
    · rintro ⟨hm, hrest, hn⟩
      exact ⟨⟨hm, hrest⟩, hm ▸ hn⟩
    · rintro ⟨⟨hm, hrest⟩, hn⟩
      exact ⟨hm, hrest, hm ▸ hn⟩

/-- Packed statements are disjoint and ascending. -/
theorem Packed.pairwise {addr : Nat} {ns : List Node} (h : Packed addr ns) :
    (∀ n ∈ ns, addr ≤ n.addr.toNat) ∧
      ns.Pairwise fun n m => n.addr.toNat + n.size ≤ m.addr.toNat := by
  induction ns generalizing addr with
  | nil => simp
  | cons n rest ih =>
    obtain ⟨hn, hrest⟩ := h
    obtain ⟨hlower, hpairwise⟩ := ih hrest
    -- By induction on the statements: each starts behind its padding, and the rest behind its end.
    have hle := (roundUp_spec addr n.element.boundary_pos).2.1
    refine ⟨?_, List.pairwise_cons.2 ⟨hlower, hpairwise⟩⟩
    intro m hm
    rcases List.mem_cons.1 hm with rfl | hm
    · omega
    · have := hlower m hm
      omega

/-! ## The layout packs statements -/

namespace Layout

variable {arch : Architecture}

/-- A label has the address of the statement that follows it; lists are the last statement first. -/
def Anchored (next n : Node) : Prop := n.declared?.isSome → n.address = next.address

/-- What holds while statements are laid out from an origin on, of which `done` are laid out. -/
structure Packing (origin : Nat) (done : List Node) (s : Layout) : Prop where
  /-- The next address is the one after the statements so far. -/
  next : s.next.toNat = extent origin done
  /-- So it is without the statements that have no bytes. -/
  stored : extent origin (s.placed.reverse.filter (·.element.isStored)) = extent origin done
  /-- The statements with bytes are packed. -/
  packed : Packed origin (s.placed.reverse.filter (·.element.isStored))
  /-- The labels in front of the next statement have its address. -/
  pending : ∀ n ∈ s.pending, n.declared?.isSome ∧ n.address = some s.next
  /-- Labels have the address of the statement that follows them. -/
  anchored : s.placed.IsChain Anchored
  /-- No label waits among the statements that are placed. -/
  last : ∀ n ∈ s.placed.head?, n.declared? = none

/-- The next statement moves the labels in front of it along with the next address. -/
theorem Packing.advance (arch : Architecture) {origin : Nat} {done : List Node} {s : Layout}
    (h : s.Packing origin done) {n : Node} (hkind : n.kind ≠ .setPc)
    (hfit : roundUp (extent origin done) n.element.boundary < 2 ^ 63) :
    (s.advance arch n).next.toNat = roundUp (extent origin done) n.element.boundary ∧
      (s.advance arch n).placed = s.placed ∧
      ∀ m ∈ (s.advance arch n).pending, m.declared?.isSome ∧
        m.address = some (s.advance arch n).next := by
  -- Only alignment moves the address and, with it, the labels that wait for the statement.
  cases halign : n.element.alignment? with
  | none =>
    rw [advance_of_alignment?_eq_none arch s hkind halign,
      Element.boundary_eq_one_of_alignment?_eq_none halign, roundUp_one]
    exact ⟨h.next, rfl, h.pending⟩
  | some size =>
    obtain ⟨hlt, rfl⟩ := Element.boundary_of_alignment? halign
    rw [advance_of_alignment? arch s halign]
    refine ⟨?_, rfl, ?_⟩
    · rw [← h.next] at hfit ⊢
      exact toNat_alignUp (by omega) hfit
    · intro m hm
      obtain ⟨k, hk, rfl⟩ := List.mem_map.1 hm
      exact ⟨(h.pending k hk).1, rfl⟩

/-- Labels with the address of the statement after them may be put between it and what is placed. -/
theorem isChain_anchored {n : Node} {pending placed : List Node}
    (hpending : ∀ m ∈ pending, m.address = n.address) (hplaced : placed.IsChain Anchored)
    (hlast : ∀ m ∈ placed.head?, m.declared? = none) : (n :: (pending ++ placed)).IsChain Anchored := by
  induction pending generalizing n with
  | nil =>
    cases placed with
    | nil => exact List.isChain_singleton _
    | cons m rest =>
      -- The statement placed before is no label, so that nothing is asked of its address.
      refine List.isChain_cons_cons.2 ⟨fun hlabel => ?_, hplaced⟩
      exact absurd (hlast m rfl) (Option.isSome_iff_ne_none.1 hlabel)
  | cons m rest ih =>
    have hm := hpending m List.mem_cons_self
    refine List.isChain_cons_cons.2 ⟨fun _ => hm, ih fun k hk => ?_⟩
    rw [hpending k (List.mem_cons_of_mem m hk), hm]

/-- A label takes no room and waits for the next statement. -/
theorem Packing.step_of_label {origin : Nat} {done : List Node} {s : Layout} (h : s.Packing origin done)
    {n : Node} {id : LabelId} (hplace : n.address = none) (hn : n.declared? = some id)
    (hwidth : arch.addressWidth < 64) (hfit : extent origin (done ++ [n]) < 2 ^ arch.addressWidth) :
    (step arch s n).Packing origin (done ++ [n]) := by
  obtain ⟨hboundary, hsize⟩ := Element.size_of_not_isStored
    (Node.isStored_of_declared? (Option.isSome_iff_exists.2 ⟨id, hn⟩))
  have hdone : extent origin (done ++ [n]) = extent origin done := by
    rw [extent_concat, hboundary, roundUp_one, Node.size, hsize, Nat.add_zero]
  rw [hdone, ← h.next] at hfit
  have hsame : s.next &&& arch.addressMask = s.next := Word.and_mask_of_lt hwidth hfit
  rw [Layout.step_of_label arch s hplace (Node.element_of_declared? hn), hsame]
  refine ⟨by rw [h.next, hdone], by rw [h.stored, hdone], h.packed, ?_, h.anchored, h.last⟩
  intro m hm
  rcases List.mem_cons.1 hm with rfl | hm
  · exact ⟨Option.isSome_iff_exists.2 ⟨id, hn⟩, rfl⟩
  · exact h.pending m hm

/-- Any other statement follows those before it and fixes the labels in front of it. -/
theorem Packing.step_of_not_label {origin : Nat} {done : List Node} {s : Layout}
    (h : s.Packing origin done) {n : Node} (hplace : n.address = none) (hn : n.declared? = none)
    (hkind : n.kind ≠ .setPc) (hwidth : arch.addressWidth < 64)
    (hfit : extent origin (done ++ [n]) < 2 ^ arch.addressWidth) :
    (step arch s n).Packing origin (done ++ [n]) := by
  have hspace : 2 ^ arch.addressWidth ≤ 2 ^ 63 := Nat.pow_le_pow_right (by omega) (by omega)
  have hdone := extent_concat origin done n
  rw [hdone] at hfit
  obtain ⟨haddr, hplaced, hpending⟩ := h.advance arch hkind (by omega)
  rw [Layout.step_of_not_label arch s hplace hn, hplaced]
  set addr := (s.advance arch n).next
  have hend : (addr + n.size.toUInt64).toNat =
      roundUp (extent origin done) n.element.boundary + n.size := by
    rw [UInt64.toNat_add, Word.toNat_toUInt64 (by omega), haddr, Nat.mod_eq_of_lt (by omega)]
  have hnext : (addr + n.size.toUInt64) &&& arch.addressMask = addr + n.size.toUInt64 :=
    Word.and_mask_of_lt hwidth (hend ▸ hfit)
  have hmove : ∀ m ∈ (s.advance arch n).pending, m.address = some addr := fun m hm => (hpending m hm).2
  -- The labels in between have no bytes, so that only the new statement is added.
  have hfilter : (({ n with address := some addr } :: ((s.advance arch n).pending ++ s.placed) :
      List Node).reverse.filter (·.element.isStored)) =
      s.placed.reverse.filter (·.element.isStored) ++
        if n.element.isStored then [{ n with address := some addr }] else [] := by
    rw [List.reverse_cons, List.reverse_append, List.filter_append, List.filter_append,
      filter_isStored_labels fun m hm => (hpending m (List.mem_reverse.1 hm)).1, List.append_nil,
      List.filter_singleton, Bool.cond_eq_ite]
  refine ⟨?_, ?_, ?_, by simp, ?_, ?_⟩
  · rw [hnext, hend, hdone]
  · rw [hfilter, hdone]
    split_ifs with hstored
    · rw [extent_concat, h.stored]
      rfl
    · obtain ⟨hboundary, hsize⟩ := Element.size_of_not_isStored (Bool.eq_false_iff.2 hstored)
      rw [List.append_nil, h.stored, hboundary, roundUp_one, Node.size, hsize, Nat.add_zero]
  · rw [hfilter]
    split_ifs with hstored
    · rw [packed_concat, h.stored]
      exact ⟨h.packed, haddr⟩
    · rw [List.append_nil]
      exact h.packed
  · exact isChain_anchored hmove h.anchored h.last
  · intro m hm
    cases hm
    exact hn

/-- Statements without addresses are packed by the layout. -/
theorem packing_run (hwidth : arch.addressWidth < 64) (origin : UInt64) (labels : LabelTable)
    {nodes : List Node} (hplace : ∀ n ∈ nodes, n.address = none) (hkind : ∀ n ∈ nodes, n.kind ≠ .setPc)
    (hfit : extent origin.toNat nodes < 2 ^ arch.addressWidth) :
    (run arch origin labels nodes).Packing origin.toNat nodes := by
  -- What is laid out last is at most as far as all of it, so that every step stays below the bound.
  induction nodes using List.reverseRecOn with
  | nil =>
    have horigin : origin &&& arch.addressMask = origin := Word.and_mask_of_lt hwidth hfit
    rw [run, List.foldl_nil, horigin]
    exact ⟨rfl, rfl, trivial, by simp, List.isChain_nil, by simp⟩
  | append_singleton nodes n ih =>
    have hle : extent origin.toNat nodes ≤ extent origin.toNat (nodes ++ [n]) := by
      rw [extent_append]
      exact le_extent _ _
    have hrun := ih (fun m hm => hplace m (List.mem_append_left _ hm))
      (fun m hm => hkind m (List.mem_append_left _ hm)) (Nat.lt_of_le_of_lt hle hfit)
    rw [run_concat]
    cases hn : n.declared? with
    | some id => exact hrun.step_of_label (hplace n (by simp)) hn hwidth hfit
    | none => exact hrun.step_of_not_label (hplace n (by simp)) hn (hkind n (by simp)) hwidth hfit

variable {origin : Nat} {done : List Node} {s : Layout}

/-- The statements with bytes are packed in all statements. -/
theorem Packing.packed_nodes (h : s.Packing origin done) :
    Packed origin (s.nodes.filter (·.element.isStored)) := by
  rw [Layout.nodes, List.reverse_append, List.filter_append,
    filter_isStored_labels fun m hm => (h.pending m (List.mem_reverse.1 hm)).1, List.append_nil]
  exact h.packed

/-- Labels have the address of the statement that follows them, in all statements. -/
theorem Packing.anchored_nodes (h : s.Packing origin done) :
    s.nodes.IsChain fun n next => Anchored next n := by
  rw [Layout.nodes, List.isChain_reverse]
  cases hpending : s.pending with
  | nil => exact h.anchored
  | cons l rest =>
    have haddr : ∀ m ∈ l :: rest, m.address = some s.next := fun m hm => (h.pending m (hpending ▸ hm)).2
    refine isChain_anchored (fun m hm => ?_) h.anchored h.last
    rw [haddr m (List.mem_cons_of_mem l hm), haddr l List.mem_cons_self]

end Layout

/-- A label has the address of the statement that follows it through further labels. -/
theorem address_of_anchored {labels rest : List Node} {l n : Node}
    (h : (l :: (labels ++ n :: rest)).IsChain fun n next => Layout.Anchored next n)
    (hl : l.declared?.isSome) (hlabels : ∀ m ∈ labels, m.declared?.isSome) : l.address = n.address := by
  induction labels generalizing l with
  | nil => exact (List.isChain_cons_cons.1 h).1 hl
  | cons m labels ih =>
    obtain ⟨hm, hrest⟩ := List.isChain_cons_cons.1 h
    exact (hm hl).trans
      (ih hrest (hlabels m List.mem_cons_self) fun k hk => hlabels k (List.mem_cons_of_mem m hk))

/-! ## Encoding keeps to the layout -/

namespace Encoding

/-- The bytes that a statement contributes. -/
def bytes (enc : Encoding) (n : Node) : List UInt8 :=
  match enc.emit? n with
  | some (.ok e) => e.row.bytes
  | _ => []

theorem isSome_emit? (enc : Encoding) (n : Node) : (enc.emit? n).isSome = n.element.isStored := by
  obtain ⟨tokens, element, scope, address⟩ := n
  cases element <;> rfl

/-- A statement that can be encoded has as many bytes as it announces. -/
theorem length_bytes (enc : Encoding) (htable : ∀ e ∈ enc.arch.table.entries, 0 < e.mode.length)
    {n : Node} (hok : ∀ e, enc.emit? n ≠ some (.error e)) : (enc.bytes n).length = n.size := by
  rcases hemit : enc.emit? n with _ | (e | e)
  · have hstored : n.element.isStored = false := by rw [← isSome_emit? enc, hemit]; rfl
    simp [bytes, hemit, Node.size, Element.size_of_not_isStored hstored]
  · exact absurd hemit (hok e)
  · rw [bytes, hemit]
    rcases (emit?_eq_ok hemit).2.2 with hlen | ⟨-, -, entry, hentry, hzero⟩
    · exact hlen
    · exact absurd (htable entry hentry) (by omega)

/-- The leading row of a statement that can be encoded, if it has bytes. -/
theorem leading?_eq_ite (enc : Encoding) (htable : ∀ e ∈ enc.arch.table.entries, 0 < e.mode.length)
    {n : Node} (hok : ∀ e, enc.emit? n ≠ some (.error e)) :
    (enc.leading? n).map (fun e => (e.row.address, e.row.bytes)) =
      if 0 < n.size then some (n.addr, enc.bytes n) else none := by
  have hlen := enc.length_bytes htable hok
  rw [← hlen]
  rcases hemit : enc.emit? n with _ | (e | e)
  · simp [leading?, bytes, hemit]
  · exact absurd hemit (hok e)
  · have haddr := (emit?_eq_ok hemit).1
    cases hbytes : e.row.bytes <;> simp [leading?, bytes, hemit, hbytes, haddr]

end Encoding

/-! ## Programs of source texts -/

namespace Tree

/-- Trees obtained from source texts, by parsing and assembling; imports come from source texts too. -/
inductive FromSource : Tree → Prop
  | parse (a : Assembler) (hfiles : ∀ file t, a.files file = some t → FromSource t) (name text : Text) :
    FromSource (a.parse name text).tree
  | assemble (a : Assembler) {t : Tree} (ht : FromSource t) (m : Memory) {out : Assembled}
    (hout : a.assemble t m = some out) : FromSource out.tree

theorem Declares.layout {t : Tree} (h : t.Declares) (arch : Architecture) (origin : UInt64) :
    (t.layout arch origin).1.Declares := by
  have hdeclared : declared (t.layout arch origin).1.nodes = declared t.nodes := by
    rw [nodes_layout, Layout.declared_run]
  have hsize : (t.layout arch origin).1.labels.size = t.labels.size := Layout.size_labels_run _ _ _ _
  exact ⟨hdeclared ▸ h.nodup, by rw [hdeclared, hsize]; exact h.inTable⟩

/-- The declarations of a tree from a source text name distinct labels. -/
theorem FromSource.declares {t : Tree} (h : t.FromSource) : t.Declares := by
  induction h with
  | parse a _ name text ih => exact a.declares_parse ih name text
  | assemble a _ m hout ih =>
    obtain ⟨-, rfl⟩ := Assembler.assemble_eq_some hout
    exact ⟨(ih.layout a.arch a.origin).nodup, (ih.layout a.arch a.origin).inTable⟩

end Tree

/-- A program in which layout and encoding agree. -/
structure Assembled.IsPacked (out : Assembled) (enc : Encoding) (origin : Nat) : Prop where
  /-- Every statement has as many bytes as it announces. -/
  sizes : ∀ n ∈ out.tree.nodes, (enc.bytes n).length = n.size
  /-- Instructions and data stand one after the other, empty data included. -/
  addresses : Packed origin (out.tree.nodes.filter (·.element.isStored))
  /-- The rows are the statements with bytes. -/
  rows : out.program.rows.map (fun r => (r.address, r.bytes)) =
    (out.tree.nodes.filter (0 < ·.size)).map fun n => (n.addr, enc.bytes n)
  /-- The rows are disjoint and ascending. -/
  disjoint : out.program.rows.Pairwise fun r s => r.address.toNat + r.bytes.length ≤ s.address.toNat
  /-- A label in front of an instruction or data has its address, also through further labels. -/
  labels : ∀ before l labels n after id, out.tree.nodes = before ++ l :: (labels ++ n :: after) →
    l.element = .label id → (∀ m ∈ labels, m.kind = .label) → n.element.isStored →
    out.tree.labels.addressOf? id = some n.addr ∧ l.addr = n.addr

namespace Tree

variable {arch : Architecture} {origin : UInt64} {wrapBranches : Bool} {m : Memory} {t : Tree}

/-- Where nothing went wrong, every statement can be encoded. -/
theorem emit?_ne_error (herrors : (t.assemble arch origin wrapBranches m).errors = []) :
    ∀ n ∈ (t.layout arch origin).1.nodes, ∀ e,
      Encoding.emit? { arch, wrapBranches, labels := (t.layout arch origin).1.labels } n ≠
        some (.error e) := by
  intro n hn e hemit
  have hfailed := (List.append_eq_nil_iff.1 herrors).2
  have hmem := List.filterMap_eq_nil_iff.1 hfailed _ (List.mem_filterMap.2 ⟨n, hn, hemit⟩)
  simp at hmem

/-- A label in front of another statement has its address after the layout. -/
theorem address_of_label (ht : t.Unplaced) (hdeclares : t.Declares)
    (hpacking : (Layout.run arch origin t.labels t.nodes).Packing origin.toNat t.nodes)
    {before labels after : List Node} {l n : Node} {id : LabelId}
    (hnodes : (t.layout arch origin).1.nodes = before ++ l :: (labels ++ n :: after))
    (hl : l.element = .label id) (hlabels : ∀ m ∈ labels, m.kind = .label) :
    (t.layout arch origin).1.labels.addressOf? id = some n.addr ∧ l.addr = n.addr := by
  rw [nodes_layout] at hnodes
  have hagrees := Layout.agrees_run arch origin ht.nodes ht.labels hdeclares.nodup hdeclares.inTable
  have hid : l.declared? = some id := by rw [Node.declared?, hl]
  -- The declaration has the address of the statement, and the table that of the declaration.
  have hchain := hpacking.anchored_nodes
  rw [hnodes] at hchain
  have haddr : l.address = n.address := by
    refine address_of_anchored hchain.right_of_append (Option.isSome_iff_exists.2 ⟨id, hid⟩) ?_
    intro k hk
    have hkind := hlabels k hk
    rw [Node.kind] at hkind
    rw [Node.declared?]
    cases helement : k.element <;> simp_all [Element.kind]
  have hmem : ∀ k ∈ l :: (labels ++ n :: after), k ∈ (Layout.run arch origin t.labels t.nodes).nodes := by
    intro k hk
    rw [hnodes]
    exact List.mem_append_right _ hk
  have hsome := Layout.isSome_address_run arch origin t.labels t.nodes n (hmem n (by simp))
  obtain ⟨addr, hn⟩ := Option.isSome_iff_exists.1 hsome
  have hlabel := hagrees.addressed l (List.mem_reverse.1 (hmem l List.mem_cons_self)) id hid
  refine ⟨?_, by rw [Node.addr, Node.addr, haddr]⟩
  calc (t.layout arch origin).1.labels.addressOf? id = l.address := hlabel
    _ = some n.addr := by rw [haddr, Node.addr, hn]; rfl

/-- Where nothing went wrong, the rows are those of the statements with bytes. -/
theorem rows_assemble (htable : ∀ e ∈ arch.table.entries, 0 < e.mode.length)
    (herrors : (t.assemble arch origin wrapBranches m).errors = []) :
    (t.assemble arch origin wrapBranches m).program.rows.map (fun r => (r.address, r.bytes)) =
      ((t.layout arch origin).1.nodes.filter (0 < ·.size)).map fun n =>
        (n.addr, Encoding.bytes { arch, wrapBranches, labels := (t.layout arch origin).1.labels } n) := by
  set enc : Encoding := { arch, wrapBranches, labels := (t.layout arch origin).1.labels } with henc
  have hrows : (t.assemble arch origin wrapBranches m).program.rows =
      ((t.layout arch origin).1.nodes.filterMap enc.leading?).map Emission.row := by
    rw [← Encoding.filter_emitted]
    exact (Program.isOverlay_ofEmissions arch m _).rows
  rw [hrows, List.map_map, List.map_filterMap, ← List.filterMap_eq_map, ← List.filterMap_eq_filter,
    List.filterMap_filterMap]
  refine List.filterMap_congr fun n hn => ?_
  refine (enc.leading?_eq_ite htable (emit?_ne_error herrors n hn)).trans ?_
  by_cases hsize : 0 < n.size <;> simp [Option.guard, hsize]

end Tree

namespace Assembler

/-- Layout and encoding agree on every program of a source text that is assembled without errors, does
not choose its addresses and fits into the address space. -/
theorem assemble_isPacked (p a : Assembler) (hfiles : ∀ file t, p.files file = some t → t.FromSource)
    (hwidth : a.arch.addressWidth < 64) (htable : ∀ e ∈ a.arch.table.entries, 0 < e.mode.length)
    (name text : Text) (m : Memory) {out : Assembled}
    (hout : a.assemble (p.parse name text).tree m = some out) (herrors : out.errors = [])
    (hsetPc : ∀ n ∈ (p.parse name text).tree.nodes, n.kind ≠ .setPc)
    (hfit : extent a.origin.toNat (p.parse name text).tree.nodes < 2 ^ a.arch.addressWidth) :
    out.IsPacked { arch := a.arch, wrapBranches := a.wrapBranches, labels := out.tree.labels }
      a.origin.toNat := by
  have hunplaced := p.unplaced_parse name text
  have hdeclares := (Tree.FromSource.parse p hfiles name text).declares
  generalize (p.parse name text).tree = t at hout hsetPc hfit hunplaced hdeclares
  unfold assemble at hout
  split_ifs at hout
  cases hout
  have hpacking := Layout.packing_run hwidth a.origin t.labels hunplaced.nodes hsetPc hfit
  have hpacked : Packed a.origin.toNat ((t.layout a.arch a.origin).1.nodes.filter (·.element.isStored)) := by
    rw [Tree.nodes_layout]
    exact hpacking.packed_nodes
  have hrows := Tree.rows_assemble htable herrors
  have hsizes := fun n hn => Encoding.length_bytes
    { arch := a.arch, wrapBranches := a.wrapBranches, labels := (t.layout a.arch a.origin).1.labels } htable
    (Tree.emit?_ne_error herrors n hn)
  refine ⟨hsizes, hpacked, hrows, ?_, ?_⟩
  · -- Rows are compared through the statements that they come from.
    have hpairs : ((t.assemble a.arch a.origin a.wrapBranches m).program.rows.map fun r =>
        (r.address, r.bytes)).Pairwise fun r s => r.1.toNat + r.2.length ≤ s.1.toNat := by
      have hsub : ((t.layout a.arch a.origin).1.nodes.filter (0 < ·.size)).Sublist
          ((t.layout a.arch a.origin).1.nodes.filter (·.element.isStored)) := by
        refine List.monotone_filter_right _ fun n hn => ?_
        by_contra hstored
        have hzero := (Element.size_of_not_isStored (Bool.eq_false_iff.2 hstored)).2
        simp [Node.size, hzero] at hn
      rw [hrows, List.pairwise_map]
      refine (hpacked.pairwise.2.sublist hsub).imp_of_mem fun {n k} hn _ hle => ?_
      rwa [hsizes n (List.mem_of_mem_filter hn)]
    exact List.pairwise_map.1 hpairs
  · intro before l labels n after id hnodes hl hlabels _
    exact Tree.address_of_label hunplaced hdeclares hpacking hnodes hl hlabels

/-- Labels in front of aligned data, which moves behind an instruction of two bytes and a string. -/
def paddedSource : Text := " LDA #1\nhere:\nthere: .long $1, \"a\"\n.byte \"\"\n BNE here\n"

theorem assemble_isPacked_padded :
    ∃ out, (ofArchitecture Mos6502.architecture).assemble
        ((ofArchitecture Mos6502.architecture).parse "demo" paddedSource).tree (.empty 16 none) = some out ∧
      out.errors = [] ∧
      out.IsPacked
        { arch := Mos6502.architecture, wrapBranches := false, labels := out.tree.labels } 0x0200 := by
  have hcheck : (∀ e ∈ Mos6502.architecture.table.entries, 0 < e.mode.length) ∧
      ((ofArchitecture Mos6502.architecture).parse "demo" paddedSource).tree.errors.isEmpty ∧
      (((ofArchitecture Mos6502.architecture).parse "demo" paddedSource).tree.assemble
        Mos6502.architecture 0x0200 false (.empty 16 none)).errors = [] ∧
      (∀ n ∈ ((ofArchitecture Mos6502.architecture).parse "demo" paddedSource).tree.nodes,
        n.kind ≠ .setPc) ∧
      extent 0x0200 ((ofArchitecture Mos6502.architecture).parse "demo" paddedSource).tree.nodes
        < 2 ^ 16 := by
    decide +kernel
  obtain ⟨htable, hempty, herrors, hsetPc, hfit⟩ := hcheck
  exact ⟨_, if_pos hempty, herrors, assemble_isPacked (ofArchitecture Mos6502.architecture)
    (ofArchitecture Mos6502.architecture) (fun _ _ h => nomatch h) (by decide) htable "demo"
    paddedSource (.empty 16 none) (if_pos hempty) herrors hsetPc hfit⟩

end Assembler

end EightBit
