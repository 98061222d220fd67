import Mathlib
import EightBit.Proofs.AddressSpace
import EightBit.Proofs.Scoping

/-!
# Assembling again

The layout keeps addresses that were given before, but it computes the next address anew, and aligned data
moves the labels in front of it. Both agree with what the first layout did: a label in front of aligned data
already stands at a multiple of its size, and the next address after a label is that of the label. So a tree
that was assembled within the address space is assembled to the same program again, from any origin.

* `Layout.run_again`: the layout of statements that were placed before.
* `Assembler.assemble_again`: a second program of a tree.
-/

namespace EightBit

namespace LabelTable

/-- A label that has an address is not placed again. -/
theorem place_of_addressOf? {t : LabelTable} {id : LabelId} {addr : UInt64}
    (h : t.addressOf? id = some addr) (other : UInt64) : t.place id other = t := by
  apply modify_eq_self
  intro l hl
  have haddr : l.address = some addr := by rwa [addressOf?, hl] at h
  rw [haddr, Option.getD_some, ← haddr]

end LabelTable

namespace Layout

variable {arch : Architecture} {origin : UInt64}

/-! ## What goes wrong -/

/-- An error does not depend on addresses. -/
theorem errors_run_congr (arch : Architecture) (origin origin' : UInt64) (labels labels' : LabelTable)
    {nodes nodes' : List Node}
    (h : nodes.map Node.bare = nodes'.map Node.bare) :
    (run arch origin labels nodes).errors = (run arch origin' labels' nodes').errors := by
  have hbare : ∀ ns : List Node, (ns.map Node.bare).filterMap (misplaced? arch) =
      ns.filterMap (misplaced? arch) := by
    intro ns
    rw [List.filterMap_map]
    rfl
  rw [errors_run, errors_run, ← hbare, h, hbare]

/-! ## Statements that were placed before -/

/-- A label that was placed before keeps its address, and so does its entry in the table. -/
theorem step_of_placed_label {s : Layout} {n : Node} {id : LabelId} {addr : UInt64}
    (hn : n.declared? = some id) (haddress : n.address = some addr)
    (hlabel : s.labels.addressOf? id = some addr) :
    step arch s n = { s with next := addr &&& arch.addressMask, pending := n :: s.pending } := by
  have helement := Node.element_of_declared? hn
  obtain ⟨tokens, element, scope, address⟩ := n
  simp only at helement haddress
  subst helement haddress
  have hplace := LabelTable.place_of_addressOf? hlabel addr
  simp [step, advance, Element.alignment?, Node.place, Node.addr, Node.size, Element.size, Nat.toUInt64,
    hplace]

/-- Any other statement keeps its address and fixes the labels in front of it. -/
theorem step_of_placed {s : Layout} {n : Node} (hn : n.declared? = none) (haddress : n.address.isSome) :
    step arch s n = { s.advance arch n with
      next := (n.addr + n.size.toUInt64) &&& arch.addressMask
      placed := n :: ((s.advance arch n).pending ++ (s.advance arch n).placed)
      pending := [] } := by
  obtain ⟨addr, haddr⟩ := Option.isSome_iff_exists.1 haddress
  obtain ⟨tokens, element, scope, address⟩ := n
  simp only at haddr
  subst haddr
  cases element <;> first | rfl | simp [Node.declared?] at hn

/-- A multiple that was rounded up to is not moved again: a size above it would have led to zero. -/
theorem alignUp_alignUp {addr size : UInt64} (h : (alignUp addr size).toNat < 2 ^ 63) :
    alignUp (alignUp addr size) size = alignUp addr size := by
  obtain ⟨q, hq⟩ : ∃ q, (alignUp addr size).toNat = q * size.toNat := by
    refine ⟨(addr + size - 1).toNat / size.toNat, ?_⟩
    have hle := Nat.div_mul_le_self (addr + size - 1).toNat size.toNat
    have hlt := (addr + size - 1).toNat_lt
    rw [alignUp, UInt64.toNat_mul, UInt64.toNat_div, Nat.mod_eq_of_lt (by omega)]
  generalize alignUp addr size = multiple at h hq
  rcases Nat.eq_zero_or_pos size.toNat with hzero | hpos
  · have hmultiple : multiple = 0 := UInt64.toNat_inj.1 (by rw [hq, hzero, Nat.mul_zero]; rfl)
    have hsize : size = 0 := UInt64.toNat_inj.1 hzero
    rw [hmultiple, hsize]
    rfl
  · have hfit : multiple.toNat + size.toNat ≤ 2 ^ 64 := by
      have hlt := size.toNat_lt
      rcases Nat.eq_zero_or_pos q with rfl | hqpos
      · omega
      · have := Nat.le_mul_of_pos_left size.toNat hqpos
        omega
    have hsum : (multiple + size - 1).toNat = q * size.toNat + (size.toNat - 1) := by
      have h1 : (1 : UInt64).toNat = 1 := rfl
      rw [UInt64.toNat_sub, UInt64.toNat_add, h1]
      omega
    have hdiv : (q * size.toNat + (size.toNat - 1)) / size.toNat = q := by
      rw [Nat.mul_comm, Nat.mul_add_div hpos, Nat.div_eq_of_lt (by omega), Nat.add_zero]
    apply UInt64.toNat_inj.1
    rw [alignUp, UInt64.toNat_mul, UInt64.toNat_div, hsum, hdiv, ← hq, Nat.mod_eq_of_lt (by omega)]

theorem anchor_anchor (hwidth : arch.addressWidth < 64) {e : Element} {next : UInt64}
    (h : e.anchor next ≤ arch.addressMask) : e.anchor (e.anchor next) = e.anchor next := by
  have hlt := (le_addressMask_iff hwidth).1 h
  have hle : 2 ^ arch.addressWidth ≤ 2 ^ 63 := Nat.pow_le_pow_right (by omega) (by omega)
  unfold Element.anchor at hlt ⊢
  split at hlt
  · exact alignUp_alignUp (by omega)
  · rfl

/-- Labels that were placed at one address go there again and wait for what follows them. -/
theorem foldl_step_labels (hwidth : arch.addressWidth < 64) (s : Layout) {addr : UInt64} {labels : List Node}
    (hmask : ∀ l ∈ labels, l.addr ≤ arch.addressMask)
    (hlabels : ∀ l ∈ labels, l.declared?.isSome ∧ l.address = some addr)
    (hagrees : ∀ l ∈ labels, ∀ id, l.declared? = some id → s.labels.addressOf? id = l.address) :
    labels.reverse.foldl (step arch) s =
      { s with next := if labels = [] then s.next else addr, pending := labels ++ s.pending } := by
  induction labels with
  | nil => rfl
  | cons l rest ih =>
    obtain ⟨hl, haddress⟩ := hlabels l List.mem_cons_self
    obtain ⟨id, hid⟩ := Option.isSome_iff_exists.1 hl
    have hlabel := hagrees l List.mem_cons_self id hid
    -- The address is in the address space, so that the next free one is the same again.
    have hcut : addr &&& arch.addressMask = addr := by
      have hle := hmask l List.mem_cons_self
      rw [Node.addr, haddress, Option.getD_some, le_addressMask_iff hwidth] at hle
      exact Word.and_mask_of_lt hwidth hle
    rw [List.reverse_cons, List.foldl_append, List.foldl_cons, List.foldl_nil,
      ih (fun k hk => hmask k (List.mem_cons_of_mem l hk)) (fun k hk => hlabels k (List.mem_cons_of_mem l hk))
        (fun k hk => hagrees k (List.mem_cons_of_mem l hk))]
    refine (step_of_placed_label hid haddress ?_).trans ?_
    · exact hlabel.trans haddress
    · rw [hcut]
      rfl

/-- A statement does not move labels that stand where it would move them to. -/
theorem advance_of_anchored (arch : Architecture) (s : Layout) (n : Node)
    (hpending : ∀ l ∈ s.pending, l.address = some (n.element.anchor s.next))
    (hagrees : ∀ l ∈ s.pending, ∀ id, l.declared? = some id → s.labels.addressOf? id = l.address) :
    (s.advance arch n).labels = s.labels ∧ (s.advance arch n).placed = s.placed ∧
      (s.advance arch n).pending = s.pending := by
  cases halign : n.element.alignment? with
  | none =>
    cases helement : n.element with
    | setPc value => cases hvalue : value.valueIn arch.dialect <;> simp [advance, helement, hvalue]
    | _ =>
      rw [advance_of_alignment?_eq_none arch s (by simp [Node.kind, helement, Element.kind]) halign]
      exact ⟨rfl, rfl, rfl⟩
  | some size =>
    simp only [Element.anchor, halign] at hpending
    rw [advance_of_alignment? arch s halign]
    refine ⟨?_, rfl, ?_⟩
    · -- Each label of the table is where its declaration is, so that moving it writes the same address.
      show s.pending.foldl (fun labels l => moveLabel labels l (alignUp s.next size)) s.labels = s.labels
      refine List.foldlRecOn s.pending _ (motive := fun labels => labels = s.labels) rfl ?_
      rintro labels rfl l hl
      unfold moveLabel
      split
      next id hid =>
        apply LabelTable.modify_eq_self
        intro k hk
        have hsame := hagrees l hl id (by rw [Node.declared?, hid])
        rw [LabelTable.addressOf?, hk, Option.bind_some] at hsame
        rw [if_pos hsame, ← hpending l hl, ← hsame]
      next => rfl
    · refine (List.map_congr_left fun l hl => ?_).trans (List.map_id _)
      rw [← hpending l hl]
      rfl

/-- Statements that the layout has chained are kept by another layout, and so are the labels. -/
theorem Chained.run_again (hwidth : arch.addressWidth < 64) {ns : List Node} (h : Chained arch origin ns)
    {labels : LabelTable} (hmask : ∀ n ∈ ns, n.addr ≤ arch.addressMask)
    (hagrees : ∀ n ∈ ns, ∀ id, n.declared? = some id → labels.addressOf? id = n.address) (origin' : UInt64) :
    (run arch origin' labels ns.reverse).labels = labels ∧
      (run arch origin' labels ns.reverse).placed = ns ∧
      (run arch origin' labels ns.reverse).pending = [] := by
  induction h with
  | nil => exact ⟨rfl, rfl, rfl⟩
  | @cons before waiting n _ hwaiting hn haddress ih =>
    have hbefore : ∀ k ∈ before, k ∈ n :: (waiting ++ before) := fun k hk =>
      List.mem_cons_of_mem n (List.mem_append_right _ hk)
    have hfront : ∀ l ∈ waiting, l ∈ n :: (waiting ++ before) := fun l hl =>
      List.mem_cons_of_mem n (List.mem_append_left _ hl)
    obtain ⟨hlabels, hplaced, hpending⟩ :=
      ih (fun k hk => hmask k (hbefore k hk)) fun k hk => hagrees k (hbefore k hk)
    have hrun : run arch origin' labels (n :: (waiting ++ before)).reverse =
        step arch (waiting.reverse.foldl (step arch) (run arch origin' labels before.reverse)) n := by
      rw [List.reverse_cons, List.reverse_append, run_concat, run, List.foldl_append]
      rfl
    generalize run arch origin' labels before.reverse = s at hlabels hplaced hpending hrun
    subst hlabels
    rw [foldl_step_labels hwidth s (fun l hl => hmask l (hfront l hl)) hwaiting
      fun l hl => hagrees l (hfront l hl), hpending, List.append_nil] at hrun
    -- The labels stand at a multiple already, which is also where the layout goes on.
    obtain ⟨hkept, hkeptPlaced, hkeptPending⟩ := advance_of_anchored arch
      { s with
        next := if waiting = [] then s.next else n.element.anchor (resume arch origin before.head?)
        pending := waiting } n
      (by
        intro l hl
        have haddr := (hwaiting l hl).2
        have hle := hmask l (hfront l hl)
        rw [Node.addr, haddr, Option.getD_some] at hle
        rw [haddr, if_neg (List.ne_nil_of_mem hl), anchor_anchor hwidth hle])
      fun l hl => hagrees l (hfront l hl)
    rw [hrun, step_of_placed hn (by rw [haddress]; rfl)]
    refine ⟨hkept, ?_, rfl⟩
    rw [hkeptPlaced, hkeptPending, ← hplaced]

/-- What the layout has placed in the address space is kept by another layout, with the labels that wait at
its end. -/
theorem Chaining.run_again (hwidth : arch.addressWidth < 64) {s : Layout} (h : s.Chaining arch origin)
    (hagrees : s.Agrees) (hmask : ∀ n ∈ s.nodes, n.addr ≤ arch.addressMask) (origin' : UInt64) :
    (run arch origin' s.labels s.nodes).labels = s.labels ∧
      (run arch origin' s.labels s.nodes).nodes = s.nodes := by
  have hplacedMem : ∀ n ∈ s.placed, n ∈ s.pending ++ s.placed := fun n hn => List.mem_append_right _ hn
  have hpendingMem : ∀ n ∈ s.pending, n ∈ s.pending ++ s.placed := fun n hn => List.mem_append_left _ hn
  obtain ⟨hlabels, hplaced, hpending⟩ := h.placed.run_again hwidth
    (fun n hn => hmask n (List.mem_reverse.2 (hplacedMem n hn)))
    (fun n hn => hagrees.addressed n (hplacedMem n hn)) origin'
  have hrun : run arch origin' s.labels s.nodes =
      s.pending.reverse.foldl (Layout.step arch) (run arch origin' s.labels s.placed.reverse) := by
    rw [Layout.nodes, List.reverse_append, run, List.foldl_append]
    rfl
  rw [hrun, foldl_step_labels hwidth _ (fun n hn => hmask n (List.mem_reverse.2 (hpendingMem n hn))) h.pending
    (by rw [hlabels]; exact fun n hn => hagrees.addressed n (hpendingMem n hn))]
  refine ⟨hlabels, ?_⟩
  simp only [Layout.nodes, hplaced, hpending, List.append_nil]

end Layout

/-! ## Trees -/

/-- Sections that are refilled with their own statements stay as they are. -/
theorem Section.refill_flatMap (secs : List Section) :
    Section.refill secs (secs.flatMap Section.nodes) = secs := by
  induction secs with
  | nil => rfl
  | cons s rest ih => rw [List.flatMap_cons, Section.refill, List.take_left, List.drop_left, ih]

namespace Tree

variable {arch : Architecture} {origin : UInt64} {t : Tree}

/-- A tree is not changed by a layout that keeps its statements and labels. -/
theorem layout_of_kept (hlabels : (Layout.run arch origin t.labels t.nodes).labels = t.labels)
    (hnodes : (Layout.run arch origin t.labels t.nodes).nodes = t.nodes) : (t.layout arch origin).1 = t := by
  simp only [layout, hlabels, hnodes]
  exact congrArg (fun sections => { t with sections }) (Section.refill_flatMap t.sections)

/-- The layout of a tree within the address space is kept, whatever the origin of another one is. -/
theorem layout_layout (hunplaced : t.Unplaced) (hdeclares : t.Declares) (hwidth : arch.addressWidth < 64)
    (hmask : ∀ n ∈ (t.layout arch origin).1.nodes, n.addr ≤ arch.addressMask) (origin' : UInt64) :
    (t.layout arch origin).1.layout arch origin' = t.layout arch origin := by
  have hnodes := nodes_layout arch origin t
  have herrors := Layout.errors_run_congr arch origin' origin (t.layout arch origin).1.labels t.labels
    (bare_layout arch origin t)
  rw [hnodes] at hmask
  obtain ⟨hlabels, hkept⟩ := (Layout.chaining_run arch origin t.labels hunplaced.nodes).run_again hwidth
    (Layout.agrees_run arch origin hunplaced.nodes hunplaced.labels hdeclares.nodup hdeclares.inTable) hmask
    origin'
  rw [← hnodes] at hlabels hkept
  exact Prod.ext (layout_of_kept hlabels hkept) herrors

end Tree

/-- A source text that is parsed without errors is assembled, also where statements are in error. If its
statements are in the address space, the tree that holds their addresses is assembled to the same program
again, with the same addresses and errors, whatever the origin then is. -/
theorem Assembler.assemble_again (p a b : Assembler)
    (hfiles : ∀ file t, p.files file = some t → t.FromSource) (harch : b.arch = a.arch)
    (hwrap : b.wrapBranches = a.wrapBranches) (hwidth : a.arch.addressWidth < 64) (name text : Text)
    (herrors : (p.parse name text).tree.errors = []) (m : Memory) :
    ∃ out, a.assemble (p.parse name text).tree m = some out ∧
      ((∀ n ∈ out.tree.nodes, n.addr ≤ a.arch.addressMask) → b.assemble out.tree m = some out) := by
  have hunplaced := p.unplaced_parse name text
  have hdeclares := (Tree.FromSource.parse p hfiles name text).declares
  generalize (p.parse name text).tree = t at herrors hunplaced hdeclares
  refine ⟨_, if_pos (List.isEmpty_iff.2 herrors), fun hmask => ?_⟩
  have hkept := Tree.layout_layout hunplaced hdeclares hwidth hmask b.origin
  -- Whether a tree was assembled without errors plays no part in its layout.
  have hlayout : ∀ assembled, Tree.layout a.arch b.origin
      { (t.layout a.arch a.origin).1 with assembled } =
        ({ (t.layout a.arch a.origin).1 with assembled }, (t.layout a.arch a.origin).2) := by
    intro assembled
    conv_rhs => rw [← hkept]
    rfl
  refine (if_pos (List.isEmpty_iff.2 herrors)).trans (congrArg some ?_)
  rw [harch, hwrap]
  unfold Tree.assemble
  rw [hlayout]
  rfl

namespace Mos6502

/-- A label in front of aligned data, a placement, and two statements in error. -/
def mixedSource : Text := "NOP\nhere: .half here\n* = $0300\n.byte 256\nfar: BNE here\n"

/-- An assembler that starts in the middle of the address space. -/
def middleAssembler : Assembler := { Assembler.ofArchitecture architecture with origin := 0x8001 }

theorem assemble_again_mixed :
    let first := Assembler.ofArchitecture architecture
    (first.parse "mixed" mixedSource).tree.errors = [] ∧
      ∃ out, first.assemble (first.parse "mixed" mixedSource).tree first.freshMemory = some out ∧
        out.errors.length = 2 ∧ out.tree.labels.addressOf? 0 = some 0x0202 ∧
        middleAssembler.assemble out.tree first.freshMemory = some out := by
  intro first
  have hcheck : (first.parse "mixed" mixedSource).tree.errors = [] ∧
      ∀ out ∈ first.assemble (first.parse "mixed" mixedSource).tree first.freshMemory,
        (out.errors.length = 2 ∧ out.tree.labels.addressOf? 0 = some 0x0202) ∧
          ∀ n ∈ out.tree.nodes, n.addr ≤ architecture.addressMask := by
    decide +kernel
  obtain ⟨herrors, hout⟩ := hcheck
  obtain ⟨out, hsome, hagain⟩ := Assembler.assemble_again first first middleAssembler (fun _ _ h => nomatch h)
    rfl rfl (by decide) "mixed" mixedSource herrors first.freshMemory
  obtain ⟨⟨hlength, haddress⟩, hmask⟩ := hout out hsome
  exact ⟨herrors, out, hsome, hlength, haddress, hagain hmask⟩

end Mos6502

end EightBit
