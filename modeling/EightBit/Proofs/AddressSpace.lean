import Mathlib
import EightBit.Proofs.Encodable

/-!
# The end of the address space

Origins, placements and the addresses after statements are cut to the address space; what alignment adds is
not. So aligned data that would start in the last bytes of the address space is put right behind it, and the
labels in front of it go along. Nothing else leaves the address space.

* `Layout.Chained`: where each statement stands, by the end of the one before it; `Layout.chaining_run` shows
  it for a whole run.
* `Carried`: statements that start with aligned data, or with labels in front of it.
* `Mos6502.assemble_contained`: the addresses of programs for the 6502.
-/

namespace EightBit

/-- The address to which a statement moves itself and the labels in front of it. -/
def Element.anchor (e : Element) (next : UInt64) : UInt64 :=
  match e.alignment? with
  | some size => Layout.alignUp next size
  | none => next

/-- The address of a statement where `next` is free. -/
def Element.start (arch : Architecture) (e : Element) (next : UInt64) : UInt64 :=
  match e with
  | .setPc value =>
    match value.valueIn arch.dialect with
    | .ok v => UInt64.ofInt v &&& arch.addressMask
    | .error _ => next
  | e => e.anchor next

namespace Layout

/-- The address after the last statement, or the origin if there is none. -/
def resume (arch : Architecture) (origin : UInt64) (last : Option Node) : UInt64 :=
  (last.elim origin fun n => n.addr + n.size.toUInt64) &&& arch.addressMask

/-- Statements that stand where those before them end, up to placement and alignment; the last one comes
first. Labels wait for the statement after them, which may move them. -/
inductive Chained (arch : Architecture) (origin : UInt64) : List Node → Prop
  | nil : Chained arch origin []
  | cons {before labels : List Node} {n : Node} (hbefore : Chained arch origin before)
    (hlabels : ∀ l ∈ labels, l.declared?.isSome ∧
      l.address = some (n.element.anchor (resume arch origin before.head?)))
    (hn : n.declared? = none)
    (haddress : n.address = some (n.element.start arch (resume arch origin before.head?))) :
    Chained arch origin (n :: (labels ++ before))

/-- What holds during the layout. -/
structure Chaining (arch : Architecture) (origin : UInt64) (s : Layout) : Prop where
  next : s.next = resume arch origin s.placed.head?
  pending : ∀ l ∈ s.pending, l.declared?.isSome ∧ l.address = some s.next
  placed : Chained arch origin s.placed

variable {arch : Architecture} {origin : UInt64}

theorem resume_and_addressMask (last : Option Node) :
    resume arch origin last &&& arch.addressMask = resume arch origin last := by
  rw [resume, UInt64.and_assoc, UInt64.and_self]

/-- A statement moves the labels in front of it only where it is aligned. -/
theorem advance_spec (arch : Architecture) (s : Layout) (n : Node)
    (hpending : ∀ l ∈ s.pending, l.address = some s.next) :
    (s.advance arch n).next = n.element.start arch s.next ∧ (s.advance arch n).placed = s.placed ∧
      (s.advance arch n).pending.map Node.bare = s.pending.map Node.bare ∧
      ∀ l ∈ (s.advance arch n).pending, l.address = some (n.element.anchor s.next) := by
  obtain ⟨tokens, element, scope, address⟩ := n
  cases halign : element.alignment? with
  | some size =>
    rw [advance_of_alignment? arch s halign]
    refine ⟨?_, rfl, ?_, ?_⟩
    · cases element <;> first | cases halign | simp only [Element.start, Element.anchor, halign, align]
    · simp only [align, List.map_map]
      rfl
    · intro l hl
      obtain ⟨k, -, rfl⟩ := List.mem_map.1 hl
      simp only [Element.anchor, halign]
  | none =>
    -- The labels in front stay, also where a placement chooses another address for what follows.
    have hanchor : element.anchor s.next = s.next := by simp only [Element.anchor, halign]
    rw [hanchor]
    cases element with
    | setPc value =>
      cases hvalue : value.valueIn arch.dialect with
      | ok v => simpa only [advance, Element.start, hvalue, true_and] using hpending
      | error e => simpa only [advance, Element.start, hvalue, true_and] using hpending
    | _ =>
      rw [advance_of_alignment?_eq_none arch s (by simp [Node.kind, Element.kind]) halign]
      exact ⟨hanchor.symm, rfl, rfl, hpending⟩

theorem Chaining.step {s : Layout} (h : s.Chaining arch origin) {n : Node} (hplace : n.address = none) :
    (Layout.step arch s n).Chaining arch origin := by
  cases hn : n.declared? with
  | some id =>
    have hnext : s.next &&& arch.addressMask = s.next := by rw [h.next, resume_and_addressMask]
    rw [step_of_label arch s hplace (Node.element_of_declared? hn), hnext]
    refine ⟨h.next, ?_, h.placed⟩
    intro l hl
    rcases List.mem_cons.1 hl with rfl | hl
    · exact ⟨Option.isSome_iff_exists.2 ⟨id, hn⟩, rfl⟩
    · exact h.pending l hl
  | none =>
    obtain ⟨hnext, hplaced, hbare, hpending⟩ := advance_spec arch s n fun l hl => (h.pending l hl).2
    rw [step_of_not_label arch s hplace hn, hplaced]
    refine ⟨rfl, by simp, .cons h.placed (fun l hl => ⟨?_, ?_⟩) hn ?_⟩
    · -- What waits is what waited before, up to addresses.
      have hmem : l.bare ∈ s.pending.map Node.bare := hbare ▸ List.mem_map_of_mem hl
      obtain ⟨k, hk, heq⟩ := List.mem_map.1 hmem
      have hsame : k.bare.declared? = l.bare.declared? := by rw [heq]
      exact Eq.trans (congrArg Option.isSome hsame.symm) (h.pending k hk).1
    · rw [← h.next]
      exact hpending l hl
    · rw [← h.next, ← hnext]

/-- Statements without addresses are chained by the layout. -/
theorem chaining_run (arch : Architecture) (origin : UInt64) (labels : LabelTable) {nodes : List Node}
    (hplace : ∀ n ∈ nodes, n.address = none) : (run arch origin labels nodes).Chaining arch origin := by
  induction nodes using List.reverseRecOn with
  | nil => exact ⟨rfl, by simp [run], .nil⟩
  | append_singleton nodes n ih =>
    rw [run_concat]
    exact (ih fun m hm => hplace m (List.mem_append_left _ hm)).step (hplace n (by simp))

/-! ## Where a statement may stand -/

theorem le_addressMask_iff (hwidth : arch.addressWidth < 64) {addr : UInt64} :
    addr ≤ arch.addressMask ↔ addr.toNat < 2 ^ arch.addressWidth := by
  have hpos := Nat.two_pow_pos arch.addressWidth
  rw [UInt64.le_iff_toNat_le, Architecture.addressMask, Word.toNat_mask hwidth]
  omega

section Bounds

variable (hwidth : arch.addressWidth < 63)

include hwidth

theorem eq_addressMask_add_one_iff {addr : UInt64} :
    addr = arch.addressMask + 1 ↔ addr.toNat = 2 ^ arch.addressWidth := by
  have hpos := Nat.two_pow_pos arch.addressWidth
  have hlt : 2 ^ arch.addressWidth < 2 ^ 64 := Nat.pow_lt_pow_right (by omega) (by omega)
  have h1 : (1 : UInt64).toNat = 1 := rfl
  rw [← UInt64.toNat_inj, UInt64.toNat_add, Architecture.addressMask, Word.toNat_mask (by omega), h1,
    Nat.sub_add_cancel hpos, Nat.mod_eq_of_lt hlt]

variable {e : Element} (hdvd : e.boundary ∣ 2 ^ arch.addressWidth) {next : UInt64}
  (hnext : next.toNat < 2 ^ arch.addressWidth)

include hdvd hnext

theorem toNat_anchor : (e.anchor next).toNat = roundUp next.toNat e.boundary := by
  cases halign : e.alignment? with
  | none => simp [Element.anchor, halign, Element.boundary_eq_one_of_alignment?_eq_none halign]
  | some size =>
    obtain ⟨-, rfl⟩ := Element.boundary_of_alignment? halign
    have hle := (roundUp_le_of_dvd e.boundary_pos hdvd hnext).1
    have hlt : 2 ^ arch.addressWidth < 2 ^ 63 := Nat.pow_lt_pow_right (by omega) hwidth
    rw [Element.anchor, halign]
    exact toNat_alignUp e.boundary_pos (by omega)

/-- Alignment leads at most right behind the address space. -/
theorem anchor_cases : e.anchor next ≤ arch.addressMask ∨
    e.anchor next = arch.addressMask + 1 ∧ e.alignment?.isSome := by
  rw [le_addressMask_iff (Nat.lt_succ_of_lt hwidth), eq_addressMask_add_one_iff hwidth, toNat_anchor hwidth hdvd hnext]
  have hle := (roundUp_le_of_dvd e.boundary_pos hdvd hnext).1
  cases halign : e.alignment? with
  | none => exact .inl (by rwa [Element.boundary_eq_one_of_alignment?_eq_none halign, roundUp_one])
  | some size => exact (Nat.lt_or_eq_of_le hle).imp_right fun heq => ⟨heq, rfl⟩

theorem start_cases : e.start arch next ≤ arch.addressMask ∨
    e.start arch next = arch.addressMask + 1 ∧ e.alignment?.isSome := by
  cases e with
  | setPc value =>
    -- A placement is cut to the address space.
    left
    rw [le_addressMask_iff (Nat.lt_succ_of_lt hwidth), Element.start]
    split
    · exact toNat_and_addressMask_lt (by omega) _
    · exact hnext
  | _ => exact anchor_cases hwidth hdvd hnext

end Bounds

end Layout

/-- Statements that start with aligned data, or with labels in front of it. -/
inductive Carried : List Node → Prop
  | aligned {n : Node} {after : List Node} (hn : n.element.alignment?.isSome) : Carried (n :: after)
  | label {n : Node} {after : List Node} (hn : n.declared?.isSome) (hafter : Carried after) :
    Carried (n :: after)

/-- Statements in the address space, up to aligned data right behind it and the labels in front of that. -/
def Contained (mask : UInt64) : List Node → Prop
  | [] => True
  | n :: after => (n.addr ≤ mask ∨ n.addr = mask + 1 ∧ Carried (n :: after)) ∧ Contained mask after

section Contained

variable {mask : UInt64} {ns ms : List Node}

theorem Carried.append (h : Carried ns) (ms : List Node) : Carried (ns ++ ms) := by
  induction h with
  | aligned hn => exact .aligned hn
  | label hn _ ih => exact .label hn ih

theorem Contained.append (h : Contained mask ns) (hms : Contained mask ms) : Contained mask (ns ++ ms) := by
  induction ns with
  | nil => exact hms
  | cons n rest ih =>
    refine ⟨h.1.imp_right ?_, ih h.2⟩
    rintro ⟨haddr, hcarried⟩
    exact ⟨haddr, hcarried.append ms⟩

theorem Contained.of_append {before after : List Node} {n : Node} (h : Contained mask (before ++ n :: after)) :
    n.addr ≤ mask ∨ n.addr = mask + 1 ∧ Carried (n :: after) := by
  induction before with
  | nil => exact h.1
  | cons k rest ih => exact ih h.2

/-- Labels that share an address go along with what follows them. -/
theorem Contained.labels {labels : List Node} {addr : UInt64}
    (hlabels : ∀ l ∈ labels, l.declared?.isSome ∧ l.address = some addr)
    (haddr : addr ≤ mask ∨ addr = mask + 1 ∧ Carried ms) (hms : Contained mask ms) :
    Contained mask (labels ++ ms) ∧ (Carried ms → Carried (labels ++ ms)) := by
  induction labels with
  | nil => exact ⟨hms, id⟩
  | cons l rest ih =>
    obtain ⟨hl, hladdr⟩ := hlabels l List.mem_cons_self
    obtain ⟨hrest, hcarried⟩ := ih fun k hk => hlabels k (List.mem_cons_of_mem l hk)
    have hsame : l.addr = addr := by rw [Node.addr, hladdr]; rfl
    refine ⟨⟨?_, hrest⟩, fun h => .label hl (hcarried h)⟩
    rw [hsame]
    exact haddr.imp_right fun h => ⟨h.1, .label hl (hcarried h.2)⟩

end Contained

namespace Layout

variable {arch : Architecture} {origin : UInt64}

/-- Chained statements are contained, in the order in which they stand. -/
theorem Chained.contained (hwidth : arch.addressWidth < 63) {ns : List Node} (h : Chained arch origin ns)
    (hdvd : ∀ n ∈ ns, n.element.boundary ∣ 2 ^ arch.addressWidth) :
    Contained arch.addressMask ns.reverse := by
  induction h with
  | nil => trivial
  | @cons before labels n _ hlabels _ haddress ih =>
    have hnext : (resume arch origin before.head?).toNat < 2 ^ arch.addressWidth :=
      toNat_and_addressMask_lt (by omega) _
    have hboundary := hdvd n List.mem_cons_self
    have haddr : n.addr = n.element.start arch (resume arch origin before.head?) := by
      rw [Node.addr, haddress]
      rfl
    have hn : Contained arch.addressMask [n] := by
      refine ⟨?_, trivial⟩
      rw [haddr]
      exact (start_cases hwidth hboundary hnext).imp_right fun h => ⟨h.1, .aligned h.2⟩
    rw [List.reverse_cons, List.reverse_append, List.append_assoc]
    refine (ih fun k hk => hdvd k ?_).append ?_
    · exact List.mem_cons_of_mem n (List.mem_append_right _ hk)
    · refine (Contained.labels (fun l hl => hlabels l (List.mem_reverse.1 hl)) ?_ hn).1
      exact (anchor_cases hwidth hboundary hnext).imp_right fun h => ⟨h.1, .aligned h.2⟩

theorem Chaining.contained (hwidth : arch.addressWidth < 63) {s : Layout} (h : s.Chaining arch origin)
    (hdvd : ∀ n ∈ s.nodes, n.element.boundary ∣ 2 ^ arch.addressWidth) :
    Contained arch.addressMask s.nodes := by
  have hplaced := h.placed.contained hwidth fun n hn =>
    hdvd n (List.mem_reverse.2 (List.mem_append_right _ hn))
  -- The labels at the end are where the next statement would stand.
  have hnext : s.next ≤ arch.addressMask := by
    rw [le_addressMask_iff (Nat.lt_succ_of_lt hwidth), h.next]
    exact toNat_and_addressMask_lt (by omega) _
  have hnone : Contained arch.addressMask [] := trivial
  have hpending := (Contained.labels (fun l hl => h.pending l (List.mem_reverse.1 hl)) (.inl hnext) hnone).1
  rw [List.append_nil] at hpending
  rw [Layout.nodes, List.reverse_append]
  exact hplaced.append hpending

/-! ## The last bytes of the address space -/

theorem Chained.head {ns : List Node} (h : Chained arch origin ns) : ∀ n ∈ ns.head?, n.declared? = none := by
  cases h with
  | nil => simp
  | cons _ _ hn _ =>
    rintro n ⟨⟩
    exact hn

/-- The labels in front of a statement are told from what stands before them. -/
theorem eq_of_labels_append {labels labels' before before' : List Node}
    (heq : labels ++ before = labels' ++ before') (hlabels : ∀ l ∈ labels, l.declared?.isSome)
    (hlabels' : ∀ l ∈ labels', l.declared?.isSome) (hbefore : ∀ n ∈ before.head?, n.declared? = none)
    (hbefore' : ∀ n ∈ before'.head?, n.declared? = none) : before = before' := by
  have hdrop : ∀ {ls ns : List Node}, (∀ l ∈ ls, l.declared?.isSome) →
      (∀ n ∈ ns.head?, n.declared? = none) → (ls ++ ns).dropWhile (·.declared?.isSome) = ns := by
    intro ls ns hls hns
    rw [List.dropWhile_append_of_pos hls]
    cases ns with
    | nil => rfl
    | cons n rest => simp [hns n rfl]
  rw [← hdrop hlabels hbefore, heq, hdrop hlabels' hbefore']

/-- A statement stands where the one before the labels in front of it ends, and these stand where it moved
them. -/
theorem Chained.address_eq {ns : List Node} (h : Chained arch origin ns) {after labels before : List Node}
    {n : Node} (hns : ns = after ++ n :: (labels ++ before)) (hn : n.declared? = none)
    (hlabels : ∀ l ∈ labels, l.declared?.isSome) (hbefore : ∀ k ∈ before.head?, k.declared? = none) :
    n.address = some (n.element.start arch (resume arch origin before.head?)) ∧
      ∀ l ∈ labels, l.address = some (n.element.anchor (resume arch origin before.head?)) := by
  induction h generalizing after with
  | nil => simp at hns
  | @cons before' labels' m hchained hlabels' _ haddress ih =>
    cases after with
    | nil =>
      obtain ⟨rfl, heq⟩ := List.cons.inj hns
      obtain rfl := eq_of_labels_append heq.symm hlabels (fun l hl => (hlabels' l hl).1) hbefore hchained.head
      obtain rfl := List.append_cancel_right heq
      exact ⟨haddress, fun l hl => (hlabels' l hl).2⟩
    | cons k after =>
      -- The statement is no label, so that it stands among those before the labels.
      obtain ⟨-, heq⟩ := List.cons.inj hns
      rcases List.append_eq_append_iff.1 heq with ⟨rest, rfl, hrest⟩ | ⟨rest, hrest, hmore⟩
      · exact ih hrest
      · cases rest with
        | nil => exact ih (show _ = [] ++ _ from hmore.symm)
        | cons l rest =>
          obtain ⟨rfl, -⟩ := List.cons.inj hmore
          have hlabel := (hlabels' n (hrest ▸ by simp)).1
          rw [hn] at hlabel
          cases hlabel

/-- Where a statement and the labels in front of it stand, in the order in which statements stand. -/
theorem Chaining.address_eq {s : Layout} (h : s.Chaining arch origin) {before labels after : List Node}
    {n : Node} (hnodes : s.nodes = before ++ (labels ++ n :: after)) (hn : n.declared? = none)
    (hlabels : ∀ l ∈ labels, l.declared?.isSome) (hbefore : ∀ k ∈ before.getLast?, k.declared? = none) :
    n.address = some (n.element.start arch (resume arch origin before.getLast?)) ∧
      ∀ l ∈ labels, l.address = some (n.element.anchor (resume arch origin before.getLast?)) := by
  have hreverse : s.pending ++ s.placed = after.reverse ++ n :: (labels.reverse ++ before.reverse) := by
    have := congrArg List.reverse hnodes
    simpa [Layout.nodes] using this
  have hlabels' : ∀ l ∈ labels.reverse, l.declared?.isSome := fun l hl => hlabels l (List.mem_reverse.1 hl)
  have hmem : ∀ l ∈ labels, l ∈ labels.reverse := fun l hl => List.mem_reverse.2 hl
  rw [← List.head?_reverse] at hbefore ⊢
  -- The labels that wait at the end stand behind the statement.
  rcases List.append_eq_append_iff.1 hreverse with ⟨rest, -, hrest⟩ | ⟨rest, hrest, hmore⟩
  · exact (h.placed.address_eq hrest hn hlabels' hbefore).imp_right fun h l hl => h l (hmem l hl)
  · cases rest with
    | nil =>
      exact (h.placed.address_eq (show _ = [] ++ _ from hmore.symm) hn hlabels' hbefore).imp_right
        fun h l hl => h l (hmem l hl)
    | cons l rest =>
      obtain ⟨rfl, -⟩ := List.cons.inj hmore
      have hlabel := (h.pending n (hrest ▸ by simp)).1
      rw [hn] at hlabel
      cases hlabel

/-- Aligned data is behind the address space exactly if it is aligned to more than what is left of it. -/
theorem Chaining.exceeds_iff (hwidth : arch.addressWidth < 63) {s : Layout} (h : s.Chaining arch origin)
    {before labels after : List Node} {n : Node} (hnodes : s.nodes = before ++ (labels ++ n :: after))
    (hdvd : n.element.boundary ∣ 2 ^ arch.addressWidth) (hlabels : ∀ l ∈ labels, l.declared?.isSome)
    (hbefore : ∀ k ∈ before.getLast?, k.declared? = none) (haligned : n.element.alignment?.isSome) :
    arch.addressMask < n.addr ↔
      2 ^ arch.addressWidth < (resume arch origin before.getLast?).toNat + n.element.boundary := by
  obtain ⟨size, hsize⟩ := Option.isSome_iff_exists.1 haligned
  have hn : n.declared? = none := by
    unfold Node.declared?
    split
    next hlabel => simp [hlabel, Element.alignment?] at hsize
    next => rfl
  have hstart : ∀ next, n.element.start arch next = n.element.anchor next := by
    intro next
    cases helement : n.element with
    | setPc value => simp [helement, Element.alignment?] at hsize
    | _ => rfl
  obtain ⟨haddress, -⟩ := h.address_eq hnodes hn hlabels hbefore
  have hnext : (resume arch origin before.getLast?).toNat < 2 ^ arch.addressWidth :=
    toNat_and_addressMask_lt (by omega) _
  have haddr : n.addr.toNat = roundUp (resume arch origin before.getLast?).toNat n.element.boundary := by
    rw [Node.addr, haddress, Option.getD_some, hstart, toNat_anchor hwidth hdvd hnext]
  -- Its address is the free one rounded up, which stays inside exactly if one boundary fits in what is left.
  rw [← UInt64.not_le, le_addressMask_iff (Nat.lt_succ_of_lt hwidth), haddr, Nat.not_lt]
  exact (roundUp_le_of_dvd n.element.boundary_pos hdvd hnext).2

end Layout

/-! ## Programs for the 6502 -/

/-- The addresses of a program are in the address space, up to aligned data at its end. -/
structure Assembled.IsContained (out : Assembled) (arch : Architecture) (origin : UInt64) : Prop where
  /-- A statement outside is right behind the address space, and it is aligned data or a label in front of
  aligned data. -/
  nodes : ∀ before n after, out.tree.nodes = before ++ n :: after →
    n.addr ≤ arch.addressMask ∨ n.addr = arch.addressMask + 1 ∧ Carried (n :: after)
  /-- Aligned data is outside exactly if it is aligned to more than what is left of the address space after
  the statement before it and the labels between them. -/
  exceeds_iff : ∀ before labels n after, out.tree.nodes = before ++ (labels ++ n :: after) →
    (∀ l ∈ labels, l.declared?.isSome) → (∀ k ∈ before.getLast?, k.declared? = none) →
    n.element.alignment?.isSome →
    (arch.addressMask < n.addr ↔
      2 ^ arch.addressWidth < (Layout.resume arch origin before.getLast?).toNat + n.element.boundary)
  /-- A label has the address of its declaration. -/
  labels : ∀ id addr, out.tree.labels.addressOf? id = some addr →
    ∃ n ∈ out.tree.nodes, n.element = .label id ∧ n.address = some addr

/-- A label that has an address after the layout has that of its declaration. -/
theorem Tree.exists_of_addressOf?_layout {t : Tree} (hunplaced : t.Unplaced) (hdeclares : t.Declares)
    {arch : Architecture} {origin : UInt64} {id : LabelId} {addr : UInt64}
    (h : (t.layout arch origin).1.labels.addressOf? id = some addr) :
    ∃ n ∈ (t.layout arch origin).1.nodes, n.element = .label id ∧ n.address = some addr := by
  have hagrees := Layout.agrees_run arch origin hunplaced.nodes hunplaced.labels hdeclares.nodup
    hdeclares.inTable
  by_cases hid : id ∈ declared ((Layout.run arch origin t.labels t.nodes).pending ++
      (Layout.run arch origin t.labels t.nodes).placed)
  · obtain ⟨n, hn, hdeclared⟩ := List.mem_filterMap.1 hid
    refine ⟨n, ?_, Node.element_of_declared? hdeclared, ?_⟩
    · rw [nodes_layout]
      exact List.mem_reverse.2 hn
    · rw [← hagrees.addressed n hn id hdeclared]
      exact h
  · have hnone := hagrees.undeclared id hid
    exact absurd (h.symm.trans hnone) nofun

namespace Mos6502

/-- The 6502 aligns to sizes of which the address space is a multiple. -/
theorem boundary_dvd {e : Element} (h : e.Encodable architecture) :
    e.boundary ∣ 2 ^ architecture.addressWidth := by
  have hdata : ∀ d ∈ architecture.data,
      (if d.aligned then max d.size 1 else 1) ∣ 2 ^ architecture.addressWidth := by decide
  cases e with
  | data directive values => exact hdata directive h.1
  | reserve directive count => exact hdata directive h
  | _ => exact Nat.one_dvd _

/-- A source text for the 6502 that is parsed without errors is assembled into a program whose addresses are
in the address space, up to aligned data in its last bytes: this moves right behind it, with the labels in
front of it. -/
theorem assemble_contained (p a : Assembler) (hp : p.arch = architecture) (ha : a.arch = architecture)
    (hfiles : ∀ file t, p.files file = some t → t.BuiltFor architecture) (name text : Text)
    (herrors : (p.parse name text).tree.errors = []) (m : Memory) :
    ∃ out, a.assemble (p.parse name text).tree m = some out ∧ out.IsContained architecture a.origin := by
  have hbuilt := Tree.BuiltFor.parse p hp hfiles name text
  have hencodable := hbuilt.encodable isConsistent_architecture
  have hunplaced := p.unplaced_parse name text
  have hdeclares := hbuilt.fromSource.declares
  -- From here on, the tree is any one whose statements can be encoded, are not placed yet and declare labels
  -- once.
  generalize (p.parse name text).tree = t at herrors hencodable hunplaced hdeclares
  refine ⟨_, if_pos (List.isEmpty_iff.2 herrors), ?_⟩
  rw [ha]
  have hwidth : architecture.addressWidth < 63 := by decide
  have hchaining := Layout.chaining_run architecture a.origin t.labels hunplaced.nodes
  have hdvd : ∀ n ∈ (Layout.run architecture a.origin t.labels t.nodes).nodes,
      n.element.boundary ∣ 2 ^ architecture.addressWidth := by
    intro n hn
    rw [← Tree.nodes_layout] at hn
    exact boundary_dvd (hencodable.layout architecture a.origin n hn)
  refine ⟨?_, ?_, fun id addr h => Tree.exists_of_addressOf?_layout hunplaced hdeclares h⟩
  · intro before n after hnodes
    have hcontained := hchaining.contained hwidth hdvd
    rw [← Tree.nodes_layout] at hcontained
    exact Contained.of_append (hnodes ▸ hcontained)
  · intro before labels n after hnodes hlabels hbefore haligned
    replace hnodes := (Tree.nodes_layout architecture a.origin t).symm.trans hnodes
    exact hchaining.exceeds_iff hwidth hnodes (hdvd n (hnodes ▸ by simp)) hlabels hbefore haligned

/-- An assembler that starts at the last address. -/
def topAssembler : Assembler := { Assembler.ofArchitecture architecture with origin := 0xFFFF }

/-- A label in front of aligned data. -/
def topSource : Text := "here: .half\n"

theorem assemble_contained_top :
    (topAssembler.parse "top" topSource).tree.errors = [] ∧
      ∃ out, topAssembler.assemble (topAssembler.parse "top" topSource).tree (.empty 16 none) = some out ∧
        out.IsContained architecture 0xFFFF := by
  have herrors : (topAssembler.parse "top" topSource).tree.errors = [] := by decide +kernel
  exact ⟨herrors, assemble_contained topAssembler topAssembler rfl rfl (fun _ _ h => nomatch h) "top"
    topSource herrors (.empty 16 none)⟩

/-- Aligned data at the last address is put behind the address space, and the label in front of it too. -/
theorem assemble_exceeds_addressMask :
    ∃ out, topAssembler.assemble (topAssembler.parse "top" topSource).tree (.empty 16 none) = some out ∧
      out.errors = [] ∧ architecture.addressMask = 0xFFFF ∧ out.tree.nodes.map Node.addr = [0x10000, 0x10000] ∧
      out.tree.labels.addressOf? 0 = some 0x10000 := by
  have hcheck : (topAssembler.assemble (topAssembler.parse "top" topSource).tree (.empty 16 none)).map
      (fun out => (out.errors, architecture.addressMask, out.tree.nodes.map Node.addr,
        out.tree.labels.addressOf? 0)) = some ([], 0xFFFF, [0x10000, 0x10000], some 0x10000) := by
    decide +kernel
  obtain ⟨out, hout, heq⟩ := Option.map_eq_some_iff.1 hcheck
  simp only [Prod.mk.injEq] at heq
  exact ⟨out, hout, heq⟩

end Mos6502

end EightBit
