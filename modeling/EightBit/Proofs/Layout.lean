import Mathlib
import EightBit.Assembly.Assembler
import EightBit.Proofs.SourceTree
import EightBit.Proofs.Word

/-!
# Layout of unplaced statements

What the layout does to statements that have no address yet. Every statement keeps everything but its
address, the next address never leaves the address space, and the label table agrees with the
declarations: a label has the address of the statement that declares it, also after it was moved past
padding.

* `Layout.step_of_label`, `Layout.step_of_not_label`: one more statement.
* `Layout.misplaced?`: the error of a statement that cannot be placed; `Layout.errors_run` collects them.
* `Tree.bare_layout`: the statements of a tree with its addresses.
* `Layout.Agrees`: agreement of labels and declarations; `Layout.agrees_run` shows it for a whole run.
* `Layout.Bounded`: how far a statement may stand behind the address space; `Layout.bounded_run` shows it
  for a whole run.
-/

namespace EightBit

/-- A statement without its address. -/
def Node.bare (n : Node) : Node := { n with address := none }

/-- Whether statements of the kind occupy bytes. -/
def Element.isStored : Element → Bool
  | .instruction .. | .data .. | .reserve .. => true
  | _ => false

/-- The number that the address of a statement is a multiple of: the size of its elements where these are
aligned. -/
def Element.boundary : Element → Nat
  | .data directive _ | .reserve directive _ => if directive.aligned then max directive.size 1 else 1
  | _ => 1

/-- The least multiple of a positive number that is not below an address. -/
def roundUp (addr size : Nat) : Nat := (addr + size - 1) / size * size

@[simp] theorem roundUp_one (addr : Nat) : roundUp addr 1 = addr := by simp [roundUp]

/-- Rounding up skips less than one multiple. -/
theorem roundUp_spec (addr : Nat) {size : Nat} (hsize : 0 < size) :
    size ∣ roundUp addr size ∧ addr ≤ roundUp addr size ∧ roundUp addr size < addr + size := by
  have hdiv := Nat.div_add_mod (addr + size - 1) size
  have hmod := Nat.mod_lt (addr + size - 1) hsize
  refine ⟨Nat.dvd_mul_left _ _, ?_, ?_⟩
  · rw [roundUp, Nat.mul_comm]
    omega
  · rw [roundUp, Nat.mul_comm]
    omega

/-- Rounding up does not pass a multiple, and reaches one that is less than the size away. -/
theorem roundUp_le_of_dvd {addr size bound : Nat} (hsize : 0 < size) (hdvd : size ∣ bound)
    (haddr : addr < bound) :
    roundUp addr size ≤ bound ∧ (bound ≤ roundUp addr size ↔ bound < addr + size) := by
  obtain ⟨hmultiple, hle, hlt⟩ := roundUp_spec addr hsize
  obtain ⟨k, hk⟩ := hmultiple
  obtain ⟨b, rfl⟩ := hdvd
  rw [hk] at hle hlt ⊢
  -- Both are multiples, so that their factors are compared.
  have hkb : k ≤ b := by
    by_contra hlt'
    have hmul : size * (b + 1) ≤ size * k := Nat.mul_le_mul_left size (by omega)
    rw [Nat.mul_succ] at hmul
    omega
  refine ⟨Nat.mul_le_mul_left size hkb, fun hbk => by omega, fun hbound => ?_⟩
  by_contra hlt'
  have hmul : size * (k + 1) ≤ size * b :=
    Nat.mul_le_mul_left size (Nat.lt_of_mul_lt_mul_left (Nat.lt_of_not_le hlt'))
  rw [Nat.mul_succ] at hmul
  omega

namespace Element

theorem boundary_pos (e : Element) : 0 < e.boundary := by
  unfold boundary
  split
  · split_ifs <;> omega
  · split_ifs <;> omega
  · exact Nat.one_pos

theorem boundary_eq_one_of_alignment?_eq_none {e : Element} (h : e.alignment? = none) :
    e.boundary = 1 := by
  cases e <;> simp_all [alignment?, boundary]

theorem boundary_of_kind_instruction {e : Element} (h : e.kind = .instruction) : e.boundary = 1 := by
  cases e <;> first | rfl | cases h

/-- What has bytes is not aligned to more than it has. -/
theorem boundary_le_size {e : Element} (h : 0 < e.size) : e.boundary ≤ e.size := by
  have hmul : ∀ {size count : Nat}, 0 < size * count → max size 1 ≤ size * count := by
    intro size count hpos
    have hcount : 0 < count := Nat.pos_of_mul_pos_left hpos
    exact Nat.max_le.2 ⟨Nat.le_mul_of_pos_right size hcount, hpos⟩
  unfold boundary
  split
  · split_ifs
    · exact hmul h
    · exact h
  · split_ifs
    · exact hmul h
    · exact h
  · exact h

/-- A statement with an alignment is aligned to more than one byte. -/
theorem boundary_of_alignment? {e : Element} {size : UInt64} (h : e.alignment? = some size) :
    1 < e.boundary ∧ size = e.boundary.toUInt64 := by
  cases e <;> simp only [alignment?, Option.ite_none_right_eq_some, Option.some.injEq,
    reduceCtorEq] at h
  all_goals
    obtain ⟨⟨haligned, hlt⟩, rfl⟩ := h
    have hmax : max (DataDirective.size ‹_›) 1 = DataDirective.size ‹_› := by omega
    simpa only [boundary, haligned, if_true, hmax, and_true] using hlt

end Element

theorem Node.element_of_declared? {n : Node} {id : LabelId} (h : n.declared? = some id) :
    n.element = .label id := by
  unfold Node.declared? at h
  split at h
  next hn => rw [hn, Option.some.inj h]
  next => cases h

/-- A statement other than a label is behind the address space by less than what it is aligned to. -/
def Node.IsBounded (arch : Architecture) (n : Node) : Prop :=
  n.declared? = none → n.addr.toNat < 2 ^ arch.addressWidth + n.element.boundary

theorem Node.isBounded_of_address (arch : Architecture) {n : Node} (h : n.address = none) :
    n.IsBounded arch := by
  intro _
  rw [Node.addr, h]
  exact Nat.lt_add_right _ (Nat.two_pow_pos _)

namespace Layout

variable (arch : Architecture)

/-! ## One more statement -/

/-- A label is placed at the next address and waits for what follows it. -/
theorem step_of_label (s : Layout) {n : Node} {id : LabelId} (hplace : n.address = none)
    (hlabel : n.element = .label id) :
    step arch s n = { s with
      next := s.next &&& arch.addressMask
      labels := s.labels.place id s.next
      pending := { n with address := some s.next } :: s.pending } := by
  obtain ⟨tokens, element, scope, address⟩ := n
  simp only at hplace hlabel
  subst hplace hlabel
  simp [step, advance, Element.alignment?, Node.place, Node.addr, Node.size, Element.size, Nat.toUInt64]

/-- Any other statement is placed at the chosen address and fixes the labels in front of it. -/
theorem step_of_not_label (s : Layout) {n : Node} (hplace : n.address = none)
    (hlabel : n.declared? = none) :
    step arch s n = { s.advance arch n with
      next := ((s.advance arch n).next + n.size.toUInt64) &&& arch.addressMask
      placed := { n with address := some (s.advance arch n).next } ::
        ((s.advance arch n).pending ++ (s.advance arch n).placed)
      pending := [] } := by
  obtain ⟨tokens, element, scope, address⟩ := n
  simp only at hplace
  subst hplace
  cases element <;> first | rfl | simp [Node.declared?] at hlabel

theorem advance_of_alignment?_eq_none (s : Layout) {n : Node} (hkind : n.kind ≠ .setPc)
    (halign : n.element.alignment? = none) : s.advance arch n = s := by
  obtain ⟨tokens, element, scope, address⟩ := n
  cases element <;> simp_all [advance, Node.kind, Element.kind]

theorem advance_of_alignment? (s : Layout) {n : Node} {size : UInt64}
    (halign : n.element.alignment? = some size) : s.advance arch n = s.align size := by
  obtain ⟨tokens, element, scope, address⟩ := n
  cases element <;> simp_all [advance, Element.alignment?]

/-- Statements are aligned, or they change at most the next address and the errors. -/
theorem advance_cases (s : Layout) (n : Node) :
    (∃ size, s.advance arch n = s.align size) ∨ ∃ next errors, s.advance arch n = { s with next, errors } := by
  unfold advance
  split
  · split
    · exact .inr ⟨_, s.errors, rfl⟩
    · exact .inr ⟨s.next, _, rfl⟩
  · split
    · exact .inl ⟨_, rfl⟩
    · exact .inr ⟨s.next, s.errors, rfl⟩

/-- No statement but the labels in front of an aligned one is moved. -/
theorem placed_advance (s : Layout) (n : Node) : (s.advance arch n).placed = s.placed := by
  obtain ⟨size, heq⟩ | ⟨next, errors, heq⟩ := advance_cases arch s n
  · rw [heq]
    rfl
  · rw [heq]

theorem forall_pending_advance {P : Node → Prop} (hP : ∀ (m : Node) addr, P m → P { m with address := addr })
    {s : Layout} (hs : ∀ m ∈ s.pending, P m) (n : Node) : ∀ m ∈ (s.advance arch n).pending, P m := by
  obtain ⟨size, heq⟩ | ⟨next, errors, heq⟩ := advance_cases arch s n
  · rw [heq]
    exact List.forall_mem_map.2 fun m hm => hP m _ (hs m hm)
  · rw [heq]
    exact hs

theorem run_concat (origin : UInt64) (labels : LabelTable) (nodes : List Node) (n : Node) :
    run arch origin labels (nodes ++ [n]) = step arch (run arch origin labels nodes) n := by
  simp [run]

/-! ## What goes wrong -/

/-- The error of a statement that chooses the next address by something that is no value. -/
def misplaced? (arch : Architecture) (n : Node) : Option AssemblyError :=
  match n.element with
  | .setPc value =>
    match value.valueIn arch.dialect with
    | .ok _ => none
    | .error e => some (.at n (.value e))
  | _ => none

theorem errors_step (s : Layout) (n : Node) :
    (step arch s n).errors = s.errors ++ (misplaced? arch n).toList := by
  have hadvance : (s.advance arch n).errors = s.errors ++ (misplaced? arch n).toList := by
    cases helement : n.element with
    | setPc value =>
      cases hvalue : value.valueIn arch.dialect with
      | ok v => simp [advance, misplaced?, helement, hvalue]
      | error e => simp [advance, misplaced?, helement, hvalue]
    | _ =>
      simp only [advance, misplaced?, helement, Option.toList_none, List.append_nil]
      split <;> rfl
  rw [← hadvance]
  unfold step
  simp only
  split <;> rfl

/-- The errors of the layout are those of its statements. -/
theorem errors_run (origin : UInt64) (labels : LabelTable) (nodes : List Node) :
    (run arch origin labels nodes).errors = nodes.filterMap (misplaced? arch) := by
  induction nodes using List.reverseRecOn with
  | nil => rfl
  | append_singleton nodes n ih =>
    rw [run_concat, errors_step, ih, List.filterMap_append]
    rfl

/-! ## Statements keep everything but their addresses -/

theorem bare_advance (s : Layout) (n : Node) :
    (s.advance arch n).nodes.map Node.bare = s.nodes.map Node.bare := by
  obtain ⟨size, heq⟩ | ⟨next, errors, heq⟩ := advance_cases arch s n
  · rw [heq]
    simp only [align, nodes, List.map_reverse, List.map_append, List.map_map]
    rfl
  · rw [heq]
    rfl

/-- One more statement is appended to those already there. -/
theorem bare_step (s : Layout) (n : Node) :
    (step arch s n).nodes.map Node.bare = s.nodes.map Node.bare ++ [n.bare] := by
  rw [← bare_advance arch s n]
  unfold step
  simp only
  split <;> simp [nodes, Node.place, Node.bare]

/-- The layout changes nothing but addresses. -/
theorem bare_run (origin : UInt64) (labels : LabelTable) (nodes : List Node) :
    (run arch origin labels nodes).nodes.map Node.bare = nodes.map Node.bare := by
  -- The layout folds from the left, so that the last statement is the last step.
  induction nodes using List.reverseRecOn with
  | nil => rfl
  | append_singleton nodes n ih => rw [run_concat, bare_step, ih, List.map_append]; rfl

theorem isSome_address_advance {s : Layout} (hs : ∀ m ∈ s.nodes, m.address.isSome) (n : Node) :
    ∀ m ∈ (s.advance arch n).nodes, m.address.isSome := by
  intro m hm
  obtain ⟨size, heq⟩ | ⟨next, errors, heq⟩ := advance_cases arch s n
  · rw [heq, Layout.nodes, List.mem_reverse, List.mem_append] at hm
    rcases hm with hm | hm
    · obtain ⟨k, -, rfl⟩ := List.mem_map.1 hm
      rfl
    · exact hs m (List.mem_reverse.2 (List.mem_append_right _ hm))
  · rw [heq] at hm
    exact hs m hm

/-- Every statement has an address after the layout. -/
theorem isSome_address_run (origin : UInt64) (labels : LabelTable) (nodes : List Node) :
    ∀ n ∈ (run arch origin labels nodes).nodes, n.address.isSome := by
  induction nodes using List.reverseRecOn with
  | nil => simp [run, Layout.nodes]
  | append_singleton nodes n ih =>
    intro m hm
    rw [run_concat] at hm
    have hadv := isSome_address_advance arch ih n
    unfold step at hm
    simp only [Layout.nodes, List.mem_reverse, List.mem_append] at hm hadv
    split at hm
    · rcases hm with hm | hm
      · rcases List.mem_cons.1 hm with rfl | hm
        · rfl
        · exact hadv m (.inl hm)
      · exact hadv m (.inr hm)
    · rcases hm with hm | hm
      · cases hm
      rcases List.mem_cons.1 hm with rfl | hm
      · rfl
      · exact hadv m (List.mem_append.1 hm)

end Layout

/-- Refilling sections with as many nodes as they hold yields these nodes. -/
theorem Section.flatMap_refill (secs : List Section) (nodes : List Node)
    (hlen : nodes.length = (secs.flatMap Section.nodes).length) :
    (Section.refill secs nodes).flatMap Section.nodes = nodes := by
  induction secs generalizing nodes with
  | nil => simpa [Section.refill, eq_comm] using hlen
  | cons s rest ih =>
    rw [List.flatMap_cons, List.length_append] at hlen
    rw [Section.refill, List.flatMap_cons, ih _ (by rw [List.length_drop]; omega),
      List.take_append_drop]

namespace Tree

/-- The statements of a tree with addresses are those of the run of the layout. -/
theorem nodes_layout (arch : Architecture) (origin : UInt64) (t : Tree) :
    (t.layout arch origin).1.nodes = (Layout.run arch origin t.labels t.nodes).nodes := by
  apply Section.flatMap_refill
  have hlen := congrArg List.length (Layout.bare_run arch origin t.labels t.nodes)
  rwa [List.length_map, List.length_map] at hlen

/-- The layout of a tree changes nothing but addresses. -/
theorem bare_layout (arch : Architecture) (origin : UInt64) (t : Tree) :
    (t.layout arch origin).1.nodes.map Node.bare = t.nodes.map Node.bare := by
  rw [nodes_layout, Layout.bare_run]

theorem exists_of_mem_layout {arch : Architecture} {origin : UInt64} {t : Tree} {n : Node}
    (hn : n ∈ (t.layout arch origin).1.nodes) : ∃ k ∈ t.nodes, k.element = n.element := by
  have hmem : n.bare ∈ t.nodes.map Node.bare := by
    rw [← bare_layout arch origin]
    exact List.mem_map_of_mem hn
  obtain ⟨k, hk, heq⟩ := List.mem_map.1 hmem
  exact ⟨k, hk, congrArg (·.element) heq⟩

end Tree

/-! ## Labels and their declarations -/

namespace LabelTable

/-- The address of the label at a place. -/
def addressOf? (t : LabelTable) (id : LabelId) : Option UInt64 := (t.get? id).bind Label.address

@[simp] theorem size_modify (t : LabelTable) (id : LabelId) (f : Label → Label) :
    (t.modify id f).size = t.size := by
  simp [size, modify]

@[simp] theorem size_place (t : LabelTable) (id : LabelId) (addr : UInt64) :
    (t.place id addr).size = t.size := size_modify t id _

theorem addressOf?_modify (t : LabelTable) (id other : LabelId) (f : Label → Label) :
    (t.modify id f).addressOf? other =
      if id = other then (t.get? other).bind fun l => (f l).address else t.addressOf? other := by
  simp only [addressOf?, get?, modify, List.getElem?_modify]
  cases t.labels[other]? with
  | none => simp
  | some l => by_cases h : id = other <;> simp [h]

theorem exists_get? {t : LabelTable} {id : LabelId} (hid : id < t.size) : ∃ l, t.get? id = some l :=
  ⟨t.labels[id], List.getElem?_eq_getElem hid⟩

/-- A label without an address is placed where it is told to be. -/
theorem addressOf?_place {t : LabelTable} {id : LabelId} (hid : id < t.size)
    (hnone : t.addressOf? id = none) (addr : UInt64) (other : LabelId) :
    (t.place id addr).addressOf? other = if id = other then some addr else t.addressOf? other := by
  obtain ⟨l, hl⟩ := exists_get? hid
  have haddr : l.address = none := by simpa [addressOf?, hl] using hnone
  rw [place, addressOf?_modify]
  by_cases hother : id = other
  · subst hother
    simp [hl, haddr]
  · simp [hother]

end LabelTable

namespace Layout

variable (arch : Architecture)

/-- A declaration that agrees with its label takes the label along when it moves. -/
theorem addressOf?_moveLabel {labels : LabelTable} {n : Node} {id : LabelId}
    (hn : n.declared? = some id) (hid : id < labels.size) (hsame : labels.addressOf? id = n.address)
    (addr : UInt64) (other : LabelId) :
    (moveLabel labels n addr).addressOf? other =
      if id = other then some addr else labels.addressOf? other := by
  obtain ⟨l, hl⟩ := LabelTable.exists_get? hid
  have haddr : l.address = n.address := by simpa [LabelTable.addressOf?, hl] using hsame
  rw [moveLabel, Node.element_of_declared? hn, LabelTable.addressOf?_modify]
  by_cases hother : id = other
  · subst hother
    simp [hl, haddr]
  · simp [hother]

/-- Moving declarations changes nothing of the labels but addresses. -/
theorem map_foldl_moveLabel {α : Type} (g : Label → α) (hg : ∀ (l : Label) a, g { l with address := a } = g l)
    (addr : UInt64) (ns : List Node) (labels : LabelTable) :
    (ns.foldl (fun labels n => moveLabel labels n addr) labels).labels.map g = labels.labels.map g := by
  induction ns generalizing labels with
  | nil => rfl
  | cons n rest ih =>
    rw [List.foldl_cons, ih, moveLabel]
    split
    · refine LabelTable.map_modify g _ _ fun l => ?_
      split_ifs
      · exact hg l _
      · rfl
    · rfl

theorem size_foldl_moveLabel (addr : UInt64) (ns : List Node) (labels : LabelTable) :
    (ns.foldl (fun labels n => moveLabel labels n addr) labels).size = labels.size := by
  simpa [LabelTable.size] using
    congrArg List.length (map_foldl_moveLabel (fun _ => ()) (fun _ _ => rfl) addr ns labels)

/-- Distinct declarations that agree with their labels take all of them along. -/
theorem addressOf?_foldl_moveLabel (addr : UInt64) {ns : List Node} {labels : LabelTable}
    (hnodup : (declared ns).Nodup) (htable : ∀ id ∈ declared ns, id < labels.size)
    (hsame : ∀ n ∈ ns, ∀ id, n.declared? = some id → labels.addressOf? id = n.address)
    (other : LabelId) :
    (ns.foldl (fun labels n => moveLabel labels n addr) labels).addressOf? other =
      if other ∈ declared ns then some addr else labels.addressOf? other := by
  induction ns generalizing labels with
  | nil => simp
  | cons n rest ih =>
    rw [List.foldl_cons]
    cases hn : n.declared? with
    | none =>
      have hrest : declared (n :: rest) = declared rest := by simp [declared, hn]
      have hkeep : moveLabel labels n addr = labels := by
        unfold moveLabel
        split
        next h => simp [Node.declared?, h] at hn
        next => rfl
      rw [hrest] at hnodup htable ⊢
      rw [hkeep, ih hnodup htable fun m hm => hsame m (List.mem_cons_of_mem n hm)]
    | some id =>
      have hrest : declared (n :: rest) = id :: declared rest := by simp [declared, hn]
      rw [hrest] at hnodup htable ⊢
      obtain ⟨hfresh, hnodup⟩ := List.nodup_cons.1 hnodup
      have hmove := addressOf?_moveLabel hn (htable id List.mem_cons_self)
        (hsame n List.mem_cons_self id hn) addr
      -- The declarations after `n` name other labels, which have not moved yet.
      have hsame' : ∀ m ∈ rest, ∀ k, m.declared? = some k →
          (moveLabel labels n addr).addressOf? k = m.address := by
        intro m hm k hk
        have hne : id ≠ k := by
          rintro rfl
          exact hfresh (List.mem_filterMap.2 ⟨m, hm, hk⟩)
        rw [hmove, if_neg hne, hsame m (List.mem_cons_of_mem n hm) k hk]
      have htable' : ∀ k ∈ declared rest, k < (moveLabel labels n addr).size := fun k hk =>
        Nat.lt_of_lt_of_eq (htable k (List.mem_cons_of_mem id hk))
          (size_foldl_moveLabel addr [n] labels).symm
      rw [ih hnodup htable' hsame', hmove]
      by_cases hother : id = other
      · simp [hother]
      · simp [hother, Ne.symm hother]

/-- What holds of labels and declarations during the layout: a label has the address of its declaration,
or none before it is declared. -/
structure Agrees (s : Layout) : Prop where
  /-- No label is declared twice. -/
  nodup : (declared (s.pending ++ s.placed)).Nodup
  /-- Every declared label is in the table. -/
  inTable : ∀ id ∈ declared (s.pending ++ s.placed), id < s.labels.size
  /-- A declared label has the address of its declaration. -/
  addressed : ∀ n ∈ s.pending ++ s.placed, ∀ id, n.declared? = some id →
    s.labels.addressOf? id = n.address
  /-- A label that is not declared yet has no address. -/
  undeclared : ∀ id ∉ declared (s.pending ++ s.placed), s.labels.addressOf? id = none

theorem declared_map_address (addr : UInt64) (ns : List Node) :
    declared (ns.map fun n => { n with address := some addr }) = declared ns := by
  rw [declared, List.filterMap_map]
  rfl

theorem Agrees.align {s : Layout} (h : s.Agrees) (size : UInt64) : (s.align size).Agrees := by
  have hdeclared : declared ((s.align size).pending ++ (s.align size).placed) =
      declared (s.pending ++ s.placed) := by
    simp only [Layout.align, declared_append, declared_map_address]
  have hnodup := h.nodup
  rw [declared_append, List.nodup_append] at hnodup
  obtain ⟨hnodup, -, hdisjoint⟩ := hnodup
  -- Padding moves the labels that wait for a statement; those before have other declarations.
  have hmove := addressOf?_foldl_moveLabel (alignUp s.next size) hnodup
    (fun id hid => h.inTable id (by rw [declared_append]; exact List.mem_append_left _ hid))
    fun n hn => h.addressed n (List.mem_append_left _ hn)
  refine ⟨hdeclared ▸ h.nodup, ?_, ?_, ?_⟩
  · intro id hid
    rw [hdeclared] at hid
    exact (size_foldl_moveLabel _ _ _).symm ▸ h.inTable id hid
  · intro n hn id hid
    refine (hmove id).trans ?_
    rcases List.mem_append.1 hn with hn | hn
    · obtain ⟨m, hm, rfl⟩ := List.mem_map.1 hn
      exact if_pos (List.mem_filterMap.2 ⟨m, hm, hid⟩)
    · have hplaced : id ∈ declared s.placed := List.mem_filterMap.2 ⟨n, hn, hid⟩
      rw [if_neg fun hpending => hdisjoint id hpending id hplaced rfl]
      exact h.addressed n (List.mem_append_right _ hn) id hid
  · intro id hid
    rw [hdeclared] at hid
    refine (hmove id).trans ?_
    rw [if_neg fun hpending => hid (by rw [declared_append]; exact List.mem_append_left _ hpending)]
    exact h.undeclared id hid

theorem Agrees.advance {s : Layout} (h : s.Agrees) (n : Node) : (s.advance arch n).Agrees := by
  obtain ⟨size, heq⟩ | ⟨next, errors, heq⟩ := advance_cases arch s n
  · rw [heq]
    exact h.align size
  · rw [heq]
    exact ⟨h.nodup, h.inTable, h.addressed, h.undeclared⟩

/-- A statement that declares nothing keeps labels and declarations in agreement. -/
theorem Agrees.step_of_not_label {s : Layout} (h : s.Agrees) {n : Node} (hplace : n.address = none)
    (hn : n.declared? = none) : (step arch s n).Agrees := by
  have hadv := h.advance arch n
  rw [Layout.step_of_not_label arch s hplace hn]
  -- The new statement declares nothing, so that the same labels are declared as before.
  have hdeclared : ∀ addr, declared ({ n with address := some addr } :: ((s.advance arch n).pending ++
      (s.advance arch n).placed)) =
        declared ((s.advance arch n).pending ++ (s.advance arch n).placed) := by
    intro addr
    exact List.filterMap_cons_none hn
  refine ⟨?_, ?_, ?_, ?_⟩
  · rw [List.nil_append, hdeclared]
    exact hadv.nodup
  · rw [List.nil_append, hdeclared]
    exact hadv.inTable
  · intro m hm id hid
    rcases List.mem_cons.1 hm with rfl | hm
    · rw [Node.declared?] at hn hid
      simp [hn] at hid
    · exact hadv.addressed m hm id hid
  · rw [List.nil_append, hdeclared]
    exact hadv.undeclared

/-- The declaration of a label that was not declared before keeps labels and declarations in agreement. -/
theorem Agrees.step_of_label {s : Layout} (h : s.Agrees) {n : Node} {id : LabelId}
    (hplace : n.address = none) (hn : n.declared? = some id) (hid : id < s.labels.size)
    (hnew : id ∉ declared (s.pending ++ s.placed)) : (step arch s n).Agrees := by
  -- The label has no address yet, so that the table takes the one of the declaration.
  have hmove := LabelTable.addressOf?_place hid (h.undeclared id hnew) s.next
  rw [Layout.step_of_label arch s hplace (Node.element_of_declared? hn)]
  have hdeclared : declared (({ n with address := some s.next } :: s.pending) ++ s.placed) =
      id :: declared (s.pending ++ s.placed) := List.filterMap_cons_some hn
  refine ⟨?_, ?_, ?_, ?_⟩
  · rw [hdeclared]
    exact List.nodup_cons.2 ⟨hnew, h.nodup⟩
  · rw [hdeclared]
    intro k hk
    rw [LabelTable.size_place]
    rcases List.mem_cons.1 hk with rfl | hk
    · exact hid
    · exact h.inTable k hk
  · intro m hm k hk
    refine (hmove k).trans ?_
    rcases List.mem_cons.1 hm with rfl | hm
    · have hsame : id = k := Option.some.inj (hn.symm.trans hk)
      exact if_pos hsame
    · have hne : id ≠ k := by
        rintro rfl
        exact hnew (List.mem_filterMap.2 ⟨m, hm, hk⟩)
      rw [if_neg hne]
      exact h.addressed m hm k hk
  · rw [hdeclared]
    intro k hk
    rw [List.mem_cons, not_or] at hk
    refine (hmove k).trans ?_
    rw [if_neg (Ne.symm hk.1)]
    exact h.undeclared k hk.2

/-- Declarations are not affected by the layout. -/
theorem declared_run (origin : UInt64) (labels : LabelTable) (nodes : List Node) :
    declared (run arch origin labels nodes).nodes = declared nodes := by
  have hbare : ∀ ns : List Node, declared (ns.map Node.bare) = declared ns := by
    intro ns
    rw [declared, List.filterMap_map]
    rfl
  rw [← hbare, bare_run, hbare]

/-- One more statement changes nothing of the labels but addresses. -/
theorem map_labels_step {α : Type} (g : Label → α) (hg : ∀ (l : Label) a, g { l with address := a } = g l)
    (s : Layout) (n : Node) : (step arch s n).labels.labels.map g = s.labels.labels.map g := by
  have hadv : (s.advance arch n).labels.labels.map g = s.labels.labels.map g := by
    obtain ⟨size, heq⟩ | ⟨next, errors, heq⟩ := advance_cases arch s n
    · rw [heq]
      exact map_foldl_moveLabel g hg _ _ _
    · rw [heq]
  unfold step
  simp only
  split
  · exact (LabelTable.map_modify g _ _ fun l => hg l _).trans hadv
  · exact hadv

theorem map_labels_run {α : Type} (g : Label → α) (hg : ∀ (l : Label) a, g { l with address := a } = g l)
    (origin : UInt64) (labels : LabelTable) (nodes : List Node) :
    (run arch origin labels nodes).labels.labels.map g = labels.labels.map g := by
  induction nodes using List.reverseRecOn with
  | nil => rfl
  | append_singleton nodes n ih => rw [run_concat, map_labels_step arch g hg, ih]

theorem size_labels_run (origin : UInt64) (labels : LabelTable) (nodes : List Node) :
    (run arch origin labels nodes).labels.size = labels.size := by
  simpa [LabelTable.size] using
    congrArg List.length (map_labels_run arch (fun _ => ()) (fun _ _ => rfl) origin labels nodes)

/-- Labels and declarations agree after the layout of statements without addresses. -/
theorem agrees_run (origin : UInt64) {labels : LabelTable} {nodes : List Node}
    (hplace : ∀ n ∈ nodes, n.address = none) (hlabels : ∀ l ∈ labels.labels, l.address = none)
    (hnodup : (declared nodes).Nodup) (htable : ∀ id ∈ declared nodes, id < labels.size) :
    (run arch origin labels nodes).Agrees := by
  induction nodes using List.reverseRecOn with
  | nil =>
    refine ⟨by simp [run], by simp [run], by simp [run], fun id _ => ?_⟩
    simp only [run, List.foldl_nil, LabelTable.addressOf?, LabelTable.get?]
    cases hl : labels.labels[id]? with
    | none => rfl
    | some l => exact hlabels l (List.mem_of_getElem? hl)
  | append_singleton nodes n ih =>
    rw [declared_append] at hnodup htable
    have hrun := ih (fun m hm => hplace m (List.mem_append_left _ hm))
      (List.nodup_append.1 hnodup).1 fun id hid => htable id (List.mem_append_left _ hid)
    rw [run_concat]
    have hn := hplace n (by simp)
    cases hid : n.declared? with
    | none => exact hrun.step_of_not_label arch hn hid
    | some id =>
      have hmem : id ∈ declared [n] := List.mem_filterMap.2 ⟨n, List.mem_singleton_self n, hid⟩
      refine hrun.step_of_label arch hn hid ?_ fun hold => ?_
      · rw [size_labels_run]
        exact htable id (List.mem_append_right _ hmem)
      · have hold' : id ∈ declared nodes := by
          rw [← declared_run arch origin labels nodes, Layout.nodes, declared, List.filterMap_reverse]
          exact List.mem_reverse.2 hold
        exact (List.nodup_append.1 hnodup).2.2 id hold' id hmem rfl

/-! ## Bounds of addresses -/

/-- Aligning skips at most the size. -/
theorem toNat_alignUp_le (addr size : UInt64) :
    (alignUp addr size).toNat ≤ addr.toNat + size.toNat := by
  have hmul := Nat.div_mul_le_self (addr + size - 1).toNat size.toNat
  have hsum : (addr + size - 1).toNat ≤ addr.toNat + size.toNat ∨ size.toNat = 0 := by
    rw [UInt64.toNat_sub, UInt64.toNat_add]
    have h1 : (1 : UInt64).toNat = 1 := rfl
    omega
  have hlt := (addr + size - 1).toNat_lt
  rw [alignUp, UInt64.toNat_mul, UInt64.toNat_div]
  rcases hsum with hsum | hzero
  · omega
  · simp [hzero]

/-- Within the words, aligning is rounding up. -/
theorem toNat_alignUp {addr : UInt64} {size : Nat} (hsize : 0 < size)
    (hfit : roundUp addr.toNat size < 2 ^ 63) :
    (alignUp addr size.toUInt64).toNat = roundUp addr.toNat size := by
  obtain ⟨hdvd, hle, hlt⟩ := roundUp_spec addr.toNat hsize
  rcases Nat.eq_zero_or_pos addr.toNat with hzero | hpos
  · -- Zero is a multiple of every size, also of one that is no word.
    have hround : roundUp 0 size = 0 := Nat.eq_zero_of_dvd_of_lt (hzero ▸ hdvd) (by simpa [hzero] using hlt)
    have halign : ∀ s : UInt64, (0 + s - 1).toNat / s.toNat * s.toNat = 0 := by
      intro s
      rcases Nat.eq_zero_or_pos s.toNat with hs | hs
      · simp [hs]
      · have hpred : (0 + s - 1).toNat < s.toNat := by
          rw [UInt64.toNat_sub, UInt64.toNat_add]
          have h0 : (0 : UInt64).toNat = 0 := rfl
          have h1 : (1 : UInt64).toNat = 1 := rfl
          have := s.toNat_lt
          omega
        rw [Nat.div_eq_of_lt hpred, Nat.zero_mul]
    have haddr : addr = 0 := UInt64.toNat_inj.1 hzero
    rw [hzero, hround, haddr, alignUp, UInt64.toNat_mul, UInt64.toNat_div, halign, Nat.zero_mod]
  · -- Behind zero the size is below a multiple that fits, so that the sum does not wrap around.
    have hsize' : size ≤ roundUp addr.toNat size := Nat.le_of_dvd (by omega) hdvd
    have hsum : (addr + size.toUInt64 - 1).toNat = addr.toNat + size - 1 := by
      rw [UInt64.toNat_sub, UInt64.toNat_add, Word.toNat_toUInt64 (by omega)]
      have h1 : (1 : UInt64).toNat = 1 := rfl
      omega
    rw [alignUp, UInt64.toNat_mul, UInt64.toNat_div, hsum, Word.toNat_toUInt64 (by omega)]
    exact Nat.mod_eq_of_lt (by rw [roundUp] at hfit; omega)

/-- What holds of addresses during the layout: the next one is in the address space, and statements are
moved out of it only by alignment. -/
structure Bounded (s : Layout) : Prop where
  /-- The next address is in the address space. -/
  next : s.next.toNat < 2 ^ arch.addressWidth
  /-- Only labels may still move. -/
  pendingLabels : ∀ n ∈ s.pending, n.declared?.isSome
  /-- Statements are not far behind the address space. -/
  placed : ∀ n ∈ s.placed, n.IsBounded arch

variable {arch}

theorem toNat_and_addressMask_lt (hwidth : arch.addressWidth < 64) (addr : UInt64) :
    (addr &&& arch.addressMask).toNat < 2 ^ arch.addressWidth := by
  rw [Architecture.addressMask, Word.toNat_and_mask _ hwidth]
  exact Nat.mod_lt _ (Nat.two_pow_pos _)

theorem next_advance_lt (hwidth : arch.addressWidth < 64) {s : Layout} (h : s.Bounded arch) (n : Node) :
    (s.advance arch n).next.toNat < 2 ^ arch.addressWidth + n.element.boundary := by
  have hpos := n.element.boundary_pos
  have hnext := h.next
  unfold Layout.advance
  split
  next hn =>
    split
    · exact Nat.lt_add_right _ (toNat_and_addressMask_lt hwidth _)
    · exact Nat.lt_add_right _ hnext
  next =>
    split
    next size hsize =>
      have hle := toNat_alignUp_le s.next size
      rw [(Element.boundary_of_alignment? hsize).2] at hle ⊢
      have hword : (n.element.boundary.toUInt64).toNat ≤ n.element.boundary := Nat.mod_le _ _
      exact Nat.lt_of_le_of_lt hle (by omega)
    next => exact Nat.lt_add_right _ hnext

/-- A statement that has an address already keeps it, and one that has none gets the next one. -/
theorem Bounded.step (hwidth : arch.addressWidth < 64) {s : Layout} (h : s.Bounded arch) {n : Node}
    (hn : n.IsBounded arch) : (Layout.step arch s n).Bounded arch := by
  have hpending := forall_pending_advance arch (fun _ _ hm => hm) h.pendingLabels n
  have hplaced := placed_advance arch s n
  have hplace : (n.place (s.advance arch n).next).IsBounded arch := by
    intro hlabel
    cases haddr : n.address with
    | none =>
      rw [Node.addr, Node.place, haddr]
      exact next_advance_lt hwidth h n
    | some addr =>
      have hkept := hn hlabel
      rw [Node.addr, haddr] at hkept
      rwa [Node.addr, Node.place, haddr]
  -- A label waits for the next statement and is bounded through it, so that nothing is said of it here.
  unfold Layout.step
  dsimp only
  split
  next id hlabel =>
    refine ⟨toNat_and_addressMask_lt hwidth _, ?_, hplaced.symm ▸ h.placed⟩
    intro m hm
    rcases List.mem_cons.1 hm with rfl | hm
    · rw [Node.declared?, hlabel]
      rfl
    · exact hpending m hm
  next =>
    refine ⟨toNat_and_addressMask_lt hwidth _, by simp, ?_⟩
    intro m hm hlabel
    rcases List.mem_cons.1 hm with rfl | hm
    · exact hplace hlabel
    rcases List.mem_append.1 hm with hm | hm
    · exact absurd hlabel (Option.isSome_iff_ne_none.1 (hpending m hm))
    · exact h.placed m (hplaced ▸ hm) hlabel

/-- Addresses are bounded after the layout of statements whose addresses were. -/
theorem bounded_run (hwidth : arch.addressWidth < 64) (origin : UInt64) (labels : LabelTable)
    {nodes : List Node} (hnodes : ∀ n ∈ nodes, n.IsBounded arch) :
    (run arch origin labels nodes).Bounded arch := by
  induction nodes using List.reverseRecOn with
  | nil => exact ⟨toNat_and_addressMask_lt hwidth _, by simp [run], by simp [run]⟩
  | append_singleton nodes n ih =>
    rw [run_concat]
    exact (ih fun m hm => hnodes m (List.mem_append_left _ hm)).step hwidth (hnodes n (by simp))

theorem Bounded.isBounded_nodes {s : Layout} (h : s.Bounded arch) : ∀ n ∈ s.nodes, n.IsBounded arch := by
  intro n hn hlabel
  rw [Layout.nodes, List.mem_reverse] at hn
  rcases List.mem_append.1 hn with hn | hn
  · exact absurd hlabel (Option.isSome_iff_ne_none.1 (h.pendingLabels n hn))
  · exact h.placed n hn hlabel

end Layout

end EightBit
