import Mathlib
import EightBit.Proofs.AddressSpace

/-!
# Labels in front of storage

Aligned data takes the labels directly in front of it along, past the padding. Any other statement between
them, also one without bytes, keeps the labels before it where they are. So a label has the address of the
statement after it, up to further labels, and that of the next bytes where there is no padding in between.

* `Layout.drift`: the free address after statements without bytes.
* `Layout.anchor_drift_eq_iff`: where the free address comes back to an address.
* `Layout.Chaining.label_addr_eq_iff`: labels and the next bytes after a layout.
* `Mos6502.assemble_isLabelled`: the labels of programs for the 6502.
-/

namespace EightBit

/-- A number is rounded to itself exactly if it is a multiple. -/
theorem roundUp_eq_self_iff (addr : Nat) {size : Nat} (hsize : 0 < size) :
    roundUp addr size = addr ↔ size ∣ addr := by
  obtain ⟨hdvd, hle, hlt⟩ := roundUp_spec addr hsize
  refine ⟨fun h => h ▸ hdvd, fun haddr => ?_⟩
  -- The difference of both multiples is below the size.
  have hdiff : size ∣ roundUp addr size - addr := Nat.dvd_sub hdvd haddr
  have hzero := Nat.eq_zero_of_dvd_of_lt hdiff (by omega)
  omega

theorem Element.start_of_kind_ne_setPc (arch : Architecture) {e : Element} (h : e.kind ≠ .setPc)
    (next : UInt64) : e.start arch next = e.anchor next := by
  cases e <;> first | rfl | exact absurd rfl h

theorem Node.boundary_of_declared? {n : Node} {id : LabelId} (h : n.declared? = some id) :
    n.element.boundary = 1 := by
  refine Element.boundary_eq_one_of_alignment?_eq_none ?_
  rw [Node.element_of_declared? h]
  rfl

/-- Statements end with labels and what these wait for. -/
theorem exists_labels_append (ns : List Node) : ∃ before labels, ns = before ++ labels ∧
    (∀ l ∈ labels, l.declared?.isSome) ∧ ∀ k ∈ before.getLast?, k.declared? = none := by
  induction ns using List.reverseRecOn with
  | nil => exact ⟨[], [], rfl, by simp, by simp⟩
  | append_singleton ns n ih =>
    cases hn : n.declared? with
    | none => exact ⟨ns ++ [n], [], by simp, by simp, by simp [hn]⟩
    | some id =>
      obtain ⟨before, labels, rfl, hlabels, hbefore⟩ := ih
      exact ⟨before, labels ++ [n], by simp, List.forall_mem_append.2 ⟨hlabels, by simp [hn]⟩, hbefore⟩

namespace Layout

variable {arch : Architecture} {origin : UInt64}

/-! ## Statements without bytes -/

/-- The free address after statements without bytes, where `next` is free before them. -/
def drift (arch : Architecture) (next : UInt64) (ns : List Node) : UInt64 :=
  ns.foldl (fun next n => n.element.anchor next &&& arch.addressMask) next

@[simp] theorem drift_nil (next : UInt64) : drift arch next [] = next := rfl

@[simp] theorem drift_cons (next : UInt64) (n : Node) (ns : List Node) :
    drift arch next (n :: ns) = drift arch (n.element.anchor next &&& arch.addressMask) ns := rfl

section Drift

variable (hwidth : arch.addressWidth < 63)

include hwidth

theorem toNat_anchor_and_addressMask {e : Element} (hdvd : e.boundary ∣ 2 ^ arch.addressWidth) {next : UInt64}
    (hnext : next.toNat < 2 ^ arch.addressWidth) :
    (e.anchor next &&& arch.addressMask).toNat = roundUp next.toNat e.boundary % 2 ^ arch.addressWidth := by
  rw [Architecture.addressMask, Word.toNat_and_mask _ (by omega), toNat_anchor hwidth hdvd hnext]

/-- An address that was passed is not free again: from above it the free address only grows, and from the
start of the address space, to which it may wrap, nothing moves it. -/
theorem anchor_drift_ne {addr : Nat} (haddr : 0 < addr) {e : Element} (he : e.boundary ∣ 2 ^ arch.addressWidth) {ns : List Node}
    (hns : ∀ n ∈ ns, n.element.boundary ∣ 2 ^ arch.addressWidth) {next : UInt64}
    (hnext : next.toNat < 2 ^ arch.addressWidth) (hpast : addr < next.toNat ∨ next.toNat = 0) :
    (e.anchor (drift arch next ns)).toNat ≠ addr := by
  -- Both cases of the hypothesis are kept by each statement.
  have hround : ∀ {size : Nat}, 0 < size → ∀ {x : Nat}, addr < x ∨ x = 0 →
      addr < roundUp x size ∨ roundUp x size = 0 := by
    intro size hsize x hx
    rcases hx with hx | rfl
    · exact .inl (hx.trans_le (roundUp_spec x hsize).2.1)
    · exact .inr ((roundUp_eq_self_iff 0 hsize).2 (dvd_zero size))
  induction ns generalizing next with
  | nil =>
    rw [drift_nil, toNat_anchor hwidth he hnext]
    have := hround e.boundary_pos hpast
    omega
  | cons n ns ih =>
    have hn := hns n List.mem_cons_self
    have hfree := toNat_anchor_and_addressMask hwidth hn hnext
    have hpos : 0 < 2 ^ arch.addressWidth := Nat.two_pow_pos _
    have hle := (roundUp_le_of_dvd n.element.boundary_pos hn hnext).1
    rw [drift_cons]
    refine ih (fun k hk => hns k (List.mem_cons_of_mem n hk)) (hfree ▸ Nat.mod_lt _ hpos) ?_
    rw [hfree]
    have hpast' := hround n.element.boundary_pos hpast
    rcases Nat.lt_or_eq_of_le hle with hlt | heq
    · rwa [Nat.mod_eq_of_lt hlt]
    · exact .inr (by rw [heq, Nat.mod_self])

/-- What stands behind statements without bytes is at the address before them exactly if this is in the
address space and nothing of them is moved from it. -/
theorem anchor_drift_eq_iff {e : Element} (he : e.boundary ∣ 2 ^ arch.addressWidth) {ns : List Node}
    (hns : ∀ n ∈ ns, n.element.boundary ∣ 2 ^ arch.addressWidth) {addr : UInt64}
    (haddr : addr.toNat ≤ 2 ^ arch.addressWidth) :
    e.anchor (drift arch (addr &&& arch.addressMask) ns) = addr ↔
      addr ≤ arch.addressMask ∧ (∀ n ∈ ns, n.element.boundary ∣ addr.toNat) ∧ e.boundary ∣ addr.toNat := by
  have hpos : 0 < 2 ^ arch.addressWidth := Nat.two_pow_pos _
  have hmod := Word.toNat_and_mask addr (show arch.addressWidth < 64 by omega)
  rw [le_addressMask_iff (Nat.lt_succ_of_lt hwidth), ← UInt64.toNat_inj]
  rcases Nat.lt_or_eq_of_le haddr with hlt | heq
  · have hsame : addr &&& arch.addressMask = addr := Word.and_mask_of_lt (by omega) hlt
    rw [hsame]
    induction ns with
    | nil => simp [toNat_anchor hwidth he hlt, roundUp_eq_self_iff _ e.boundary_pos, hlt]
    | cons n ns ih =>
      have hn := hns n List.mem_cons_self
      have hrest : ∀ k ∈ ns, k.element.boundary ∣ 2 ^ arch.addressWidth :=
        fun k hk => hns k (List.mem_cons_of_mem n hk)
      rw [drift_cons, List.forall_mem_cons]
      by_cases hdvd : n.element.boundary ∣ addr.toNat
      · have hstay : n.element.anchor addr = addr := by
          rw [← UInt64.toNat_inj, toNat_anchor hwidth hn hlt,
            (roundUp_eq_self_iff _ n.element.boundary_pos).2 hdvd]
        rw [hstay, hsame]
        simpa only [hdvd, true_and] using ih hrest
      · -- The first statement that is moved passes the address.
        have hfree := toNat_anchor_and_addressMask hwidth hn hlt
        obtain ⟨-, hge, -⟩ := roundUp_spec addr.toNat n.element.boundary_pos
        have hne := mt (roundUp_eq_self_iff addr.toNat n.element.boundary_pos).1 hdvd
        have hle := (roundUp_le_of_dvd n.element.boundary_pos hn hlt).1
        have hzero : addr.toNat ≠ 0 := fun h => hdvd (h ▸ dvd_zero _)
        refine iff_of_false
          (anchor_drift_ne hwidth (Nat.pos_of_ne_zero hzero) he hrest (hfree ▸ Nat.mod_lt _ hpos) ?_) ?_
        · rw [hfree]
          rcases Nat.lt_or_eq_of_le hle with hlt' | heq
          · exact .inl (by rw [Nat.mod_eq_of_lt hlt']; omega)
          · exact .inr (by rw [heq, Nat.mod_self])
        · rintro ⟨-, ⟨h, -⟩, -⟩
          exact hdvd h
  · -- Right behind the address space, the next free address is its start.
    refine iff_of_false (anchor_drift_ne hwidth (heq ▸ hpos) he hns ?_ (.inr ?_)) (by omega)
    · exact hmod ▸ Nat.mod_lt _ hpos
    · rw [Architecture.addressMask, hmod, heq, Nat.mod_self]

end Drift

/-! ## Labels after a layout -/

section Labels

variable {s : Layout} (h : s.Chaining arch origin) {before labels between after : List Node} {n : Node}
  (hnodes : s.nodes = before ++ (labels ++ (between ++ n :: after)))
  (hlabels : ∀ l ∈ labels, l.declared?.isSome) (hbefore : ∀ k ∈ before.getLast?, k.declared? = none)
  (hbetween : ∀ k ∈ between, k.size = 0 ∧ k.kind ≠ .setPc) (hn : n.declared? = none)
  (hkind : n.kind ≠ .setPc)

include h hnodes hlabels hbefore hbetween hn hkind

/-- A statement stands where those without bytes in front of it leave the free address. -/
theorem Chaining.address_eq_anchor_drift :
    n.address = some (n.element.anchor (drift arch (resume arch origin before.getLast?) between)) := by
  induction between generalizing before labels with
  | nil =>
    rw [(h.address_eq hnodes hn hlabels hbefore).1, Element.start_of_kind_ne_setPc arch hkind, drift_nil]
  | cons k between ih =>
    obtain ⟨hsize, hk⟩ := hbetween k List.mem_cons_self
    have hrest := fun m hm => hbetween m (List.mem_cons_of_mem k hm)
    rw [drift_cons]
    cases hdeclared : k.declared? with
    | some id =>
      -- A further label does not move the free address.
      have hanchor : ∀ next, k.element.anchor next = next := by
        intro next
        rw [Node.element_of_declared? hdeclared]
        rfl
      rw [hanchor, resume_and_addressMask]
      have hmore : s.nodes = before ++ ((labels ++ [k]) ++ (between ++ n :: after)) := by simpa using hnodes
      exact ih hmore (List.forall_mem_append.2 ⟨hlabels, by simp [hdeclared]⟩) hbefore hrest
    | none =>
      have haddress := (h.address_eq hnodes hdeclared hlabels hbefore).1
      rw [Element.start_of_kind_ne_setPc arch hk] at haddress
      have hresume : resume arch origin (before ++ (labels ++ [k])).getLast? =
          k.element.anchor (resume arch origin before.getLast?) &&& arch.addressMask := by
        simp [resume, Node.addr, haddress, hsize, Nat.toUInt64]
      have hmore : s.nodes = (before ++ (labels ++ [k])) ++ ([] ++ (between ++ n :: after)) := by
        simpa using hnodes
      rw [← hresume]
      exact ih hmore (by simp) (by simp [hdeclared]) hrest

/-- A label has the address of the next bytes exactly if only labels are in between or if the address is a
multiple of all that the statements up to there are aligned to. -/
theorem Chaining.label_addr_eq_iff (hwidth : arch.addressWidth < 63)
    (hdvd : ∀ k ∈ between ++ [n], k.element.boundary ∣ 2 ^ arch.addressWidth) {l : Node} (hl : l ∈ labels) :
    l.addr = n.addr ↔ (∀ k ∈ between, k.declared?.isSome) ∨
      l.addr ≤ arch.addressMask ∧ ∀ k ∈ between ++ [n], k.element.boundary ∣ l.addr.toNat := by
  induction between generalizing labels with
  | nil =>
    obtain ⟨haddress, hmoved⟩ := h.address_eq hnodes hn hlabels hbefore
    rw [Element.start_of_kind_ne_setPc arch hkind] at haddress
    exact iff_of_true (by rw [Node.addr, Node.addr, haddress, hmoved l hl]) (.inl (by simp))
  | cons k between ih =>
    have hrest := fun m hm => hbetween m (List.mem_cons_of_mem k hm)
    have hboundary := hdvd k (by simp)
    have hdvd' : ∀ m ∈ between ++ [n], m.element.boundary ∣ 2 ^ arch.addressWidth :=
      fun m hm => hdvd m (List.mem_cons_of_mem k hm)
    rw [List.cons_append, List.forall_mem_cons, List.forall_mem_cons]
    -- A further label takes no room and joins the ones before; the first other statement anchors them all.
    cases hdeclared : k.declared? with
    | some id =>
      have hone : k.element.boundary ∣ l.addr.toNat := by
        rw [Node.boundary_of_declared? hdeclared]
        exact one_dvd _
      have hmore : s.nodes = before ++ ((labels ++ [k]) ++ (between ++ n :: after)) := by simpa using hnodes
      rw [ih hmore (List.forall_mem_append.2 ⟨hlabels, by simp [hdeclared]⟩) hrest hdvd'
        (List.mem_append_left _ hl)]
      simp only [Option.isSome_some, hone, true_and]
    | none =>
      have hnext : (resume arch origin before.getLast?).toNat < 2 ^ arch.addressWidth :=
        toNat_and_addressMask_lt (by omega) _
      have haddr : l.addr = k.element.anchor (resume arch origin before.getLast?) := by
        rw [Node.addr, (h.address_eq hnodes hdeclared hlabels hbefore).2 l hl, Option.getD_some]
      have hround := toNat_anchor hwidth hboundary hnext
      rw [← haddr] at hround
      have hown : k.element.boundary ∣ l.addr.toNat := hround ▸ (roundUp_spec _ k.element.boundary_pos).1
      have hle : l.addr.toNat ≤ 2 ^ arch.addressWidth :=
        hround ▸ (roundUp_le_of_dvd k.element.boundary_pos hboundary hnext).1
      have hstored : n.addr = n.element.anchor (drift arch (l.addr &&& arch.addressMask) between) := by
        rw [Node.addr, h.address_eq_anchor_drift hnodes hlabels hbefore hbetween hn hkind, drift_cons, ← haddr,
          Option.getD_some]
      rw [eq_comm, hstored, anchor_drift_eq_iff hwidth (hdvd' n (by simp))
        (fun m hm => hdvd' m (List.mem_append_left _ hm)) hle]
      simp [hown, or_imp, forall_and]

end Labels

end Layout

/-! ## Programs for the 6502 -/

/-- Labels have the address of the statement after them, and that of the next bytes up to padding. -/
structure Assembled.IsLabelled (out : Assembled) (mask : UInt64) : Prop where
  /-- The table has the address of the declaration. -/
  table : ∀ l ∈ out.tree.nodes, ∀ id, l.element = .label id → out.tree.labels.addressOf? id = some l.addr
  /-- A label has the address of the next statement that is no label, also where this was moved past
  padding. -/
  next : ∀ before l labels n after, out.tree.nodes = before ++ l :: (labels ++ n :: after) →
    l.declared?.isSome → (∀ k ∈ labels, k.declared?.isSome) → n.declared? = none → n.kind ≠ .setPc →
    l.addr = n.addr
  /-- With statements without bytes in between, it has the address of the next bytes exactly if these
  statements are labels or if its address is in the address space and needs no padding for any of them. -/
  storage : ∀ before l between n after, out.tree.nodes = before ++ l :: (between ++ n :: after) →
    l.declared?.isSome → (∀ k ∈ between, k.size = 0 ∧ k.kind ≠ .setPc) → 0 < n.size →
    (l.addr = n.addr ↔ (∀ k ∈ between, k.declared?.isSome) ∨
      l.addr ≤ mask ∧ ∀ k ∈ between ++ [n], k.element.boundary ∣ l.addr.toNat)

/-- What has bytes is neither a label nor a placement. -/
theorem Node.declared?_and_kind_of_size_pos {n : Node} (h : 0 < n.size) :
    n.declared? = none ∧ n.kind ≠ .setPc := by
  rw [Node.size] at h
  rw [Node.declared?, Node.kind]
  cases helement : n.element <;> simp_all [Element.kind, Element.size]

/-- A declared label has the address of its declaration after the layout. -/
theorem Tree.addressOf?_layout {t : Tree} (hunplaced : t.Unplaced) (hdeclares : t.Declares)
    {arch : Architecture} {origin : UInt64} {l : Node} (hl : l ∈ (t.layout arch origin).1.nodes) {id : LabelId}
    (hid : l.element = .label id) : (t.layout arch origin).1.labels.addressOf? id = some l.addr := by
  rw [nodes_layout] at hl
  have hagrees := Layout.agrees_run arch origin hunplaced.nodes hunplaced.labels hdeclares.nodup
    hdeclares.inTable
  obtain ⟨addr, haddr⟩ :=
    Option.isSome_iff_exists.1 (Layout.isSome_address_run arch origin t.labels t.nodes l hl)
  have hdeclared : l.declared? = some id := by rw [Node.declared?, hid]
  calc (t.layout arch origin).1.labels.addressOf? id = l.address :=
        hagrees.addressed l (List.mem_reverse.1 hl) id hdeclared
    _ = some l.addr := by rw [Node.addr, haddr, Option.getD_some]

namespace Mos6502

/-- A source text for the 6502 that is parsed without errors is assembled into a program whose labels have
the address of the statement after them; bytes behind further statements have it up to padding. -/
theorem assemble_isLabelled (p a : Assembler) (hp : p.arch = architecture) (ha : a.arch = architecture)
    (hfiles : ∀ file t, p.files file = some t → t.BuiltFor architecture) (name text : Text)
    (herrors : (p.parse name text).tree.errors = []) (m : Memory) :
    ∃ out, a.assemble (p.parse name text).tree m = some out ∧ out.IsLabelled architecture.addressMask := by
  have hbuilt := Tree.BuiltFor.parse p hp hfiles name text
  have hencodable := hbuilt.encodable isConsistent_architecture
  have hunplaced := p.unplaced_parse name text
  have hdeclares := hbuilt.fromSource.declares
  generalize (p.parse name text).tree = t at herrors hencodable hunplaced hdeclares
  refine ⟨_, if_pos (List.isEmpty_iff.2 herrors), ?_⟩
  rw [ha]
  have hnodes := Tree.nodes_layout architecture a.origin t
  have hchaining := Layout.chaining_run architecture a.origin t.labels hunplaced.nodes
  refine ⟨fun l hl id hid => Tree.addressOf?_layout hunplaced hdeclares hl hid, ?_, ?_⟩
  · intro before l labels n after hsplit hl hlabels hn hkind
    -- Labels in front of this one are anchored with it, so that they are split off with it.
    obtain ⟨before, front, rfl, hfront, hbefore⟩ := exists_labels_append before
    have hsplit' : (Layout.run architecture a.origin t.labels t.nodes).nodes =
        before ++ ((front ++ l :: labels) ++ n :: after) := by
      simpa using hnodes.symm.trans hsplit
    obtain ⟨haddress, hmoved⟩ := hchaining.address_eq hsplit' hn
      (List.forall_mem_append.2 ⟨hfront, List.forall_mem_cons.2 ⟨hl, hlabels⟩⟩) hbefore
    rw [Element.start_of_kind_ne_setPc architecture hkind] at haddress
    rw [Node.addr, Node.addr, haddress, hmoved l (by simp)]
  · intro before l between n after hsplit hl hbetween hsize
    obtain ⟨before, front, rfl, hfront, hbefore⟩ := exists_labels_append before
    obtain ⟨hn, hkind⟩ := Node.declared?_and_kind_of_size_pos hsize
    have hdvd : ∀ k ∈ between ++ [n], k.element.boundary ∣ 2 ^ architecture.addressWidth := by
      intro k hk
      have hmem : k ∈ (between ++ [n]) ++ after := List.mem_append_left after hk
      rw [List.append_assoc, List.singleton_append] at hmem
      refine boundary_dvd (hencodable.layout architecture a.origin k (hsplit ▸ ?_))
      exact List.mem_append_right _ (List.mem_cons_of_mem l hmem)
    have hsplit' : (Layout.run architecture a.origin t.labels t.nodes).nodes =
        before ++ ((front ++ [l]) ++ (between ++ n :: after)) := by
      simpa using hnodes.symm.trans hsplit
    exact hchaining.label_addr_eq_iff hsplit'
      (List.forall_mem_append.2 ⟨hfront, List.forall_mem_singleton.2 hl⟩) hbefore hbetween hn hkind (by decide)
      hdvd (by simp)

/-- Exports and data without elements between labels and aligned data. -/
def separatedSource : Text := ".byte 1\nhere:\n.global here\nthere: .half 2\n.byte 3\nlast: .half \"\"\n.long 4\n"

theorem assemble_isLabelled_separated :
    ((Assembler.ofArchitecture architecture).parse "separated" separatedSource).tree.errors = [] ∧
      ∃ out, (Assembler.ofArchitecture architecture).assemble
          ((Assembler.ofArchitecture architecture).parse "separated" separatedSource).tree
          (.empty 16 none) = some out ∧ out.IsLabelled 0xFFFF := by
  have herrors : ((Assembler.ofArchitecture architecture).parse "separated" separatedSource).tree.errors = [] := by
    decide +kernel
  exact ⟨herrors, assemble_isLabelled (Assembler.ofArchitecture architecture)
    (Assembler.ofArchitecture architecture) rfl rfl (fun _ _ h => nomatch h) "separated" separatedSource herrors
    (.empty 16 none)⟩

/-- A label that is exported in front of aligned data. -/
def exportedSource : Text := ".byte 1\nhere:\n.global here\n.half 2\n"

/-- The export keeps the label where it is, and the aligned data behind it moves. -/
theorem exported_label_before_padding :
    ∃ out, (Assembler.ofArchitecture architecture).assemble
        ((Assembler.ofArchitecture architecture).parse "exported" exportedSource).tree (.empty 16 none) = some out ∧
      out.errors = [] ∧
      out.tree.nodes.map (fun n => (n.kind, n.size, n.addr)) =
        [(.initializedData, 1, 0x200), (.label, 0, 0x201), (.global, 0, 0x201), (.initializedData, 2, 0x202)] ∧
      out.tree.labels.addressOf? 0 = some 0x201 := by
  have hcheck : ((Assembler.ofArchitecture architecture).assemble
      ((Assembler.ofArchitecture architecture).parse "exported" exportedSource).tree (.empty 16 none)).map
      (fun out => (out.errors, out.tree.nodes.map (fun n => (n.kind, n.size, n.addr)),
        out.tree.labels.addressOf? 0)) =
      some ([], [(.initializedData, 1, 0x200), (.label, 0, 0x201), (.global, 0, 0x201), (.initializedData, 2, 0x202)],
        some 0x201) := by
    decide +kernel
  obtain ⟨out, hout, heq⟩ := Option.map_eq_some_iff.1 hcheck
  simp only [Prod.mk.injEq] at heq
  exact ⟨out, hout, heq⟩

end Mos6502

end EightBit
