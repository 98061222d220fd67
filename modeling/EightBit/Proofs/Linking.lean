import Mathlib
import EightBit.Proofs.Packing

/-!
# Linked trees

Linking drops duplicate labels in one pass over the statements, and moves what was scoped to a dropped
label to the label that it duplicates. This is right because statements refer only to what is declared
before them: once a statement is reached, it is settled where its scope and its parent have moved to.
Grafting and linking keep the order, so that imported trees may be linked once more.

* `InOrder`: statements that refer only to labels declared before them.
* `WellScoped`: the order, with the live labels being those that are declared.
* `Link.Settled`: what holds while duplicates are dropped; `Link.settled_nodes` shows it for a whole run.
* `Tree.Linked`: labels, declarations and references of a tree fit together.
* `Tree.linked_parse`: they do in every parsed tree.
-/

namespace EightBit

/-! ## The label table -/

/-- What identifies a label among those of a table, and whether it was dropped. -/
def Label.identity (l : Label) : Option LabelId × Text × Bool := (l.parent, l.name, l.dropped)

namespace LabelTable

variable {t t' : LabelTable} {id : LabelId}

/-- The identity of the label at a place. -/
def identity? (t : LabelTable) (id : LabelId) : Option (Option LabelId × Text × Bool) :=
  (t.get? id).map Label.identity

/-- The parent of the label at a place, if there is such a label. -/
def parentOf? (t : LabelTable) (id : LabelId) : Option (Option LabelId) :=
  (t.identity? id).map Prod.fst

/-- The parent and the name of the label at a place. -/
def keyOf? (t : LabelTable) (id : LabelId) : Option (Option LabelId × Text) :=
  (t.identity? id).map fun (parent, name, _) => (parent, name)

/-- Whether the label at a place is there and was not dropped. -/
def IsLive (t : LabelTable) (id : LabelId) : Prop := ∃ parent name, t.identity? id = some (parent, name, false)

theorem mem_live {l : Label} : (id, l) ∈ t.live ↔ t.get? id = some l ∧ l.dropped = false := by
  simp only [live, List.mem_map, List.mem_filter, Prod.exists, List.mem_zipIdx_iff_getElem?, get?,
    Bool.not_eq_true', Prod.mk.injEq]
  constructor
  · rintro ⟨_, _, h, rfl, rfl⟩
    exact h
  · exact fun h => ⟨l, id, h, rfl, rfl⟩

theorem isLive_iff : t.IsLive id ↔ ∃ l, (id, l) ∈ t.live := by
  simp only [mem_live, IsLive, identity?, Option.map_eq_some_iff, Label.identity, Prod.mk.injEq]
  constructor
  · rintro ⟨_, _, l, hl, rfl, rfl, hdropped⟩
    exact ⟨l, hl, hdropped⟩
  · rintro ⟨l, hl, hdropped⟩
    exact ⟨l.parent, l.name, l, hl, rfl, rfl, hdropped⟩

theorem IsLive.lt_size (h : t.IsLive id) : id < t.size := by
  obtain ⟨l, hl⟩ := isLive_iff.1 h
  exact (List.getElem?_eq_some_iff.1 (mem_live.1 hl).1).1

theorem get?_modify (t : LabelTable) (id other : LabelId) (f : Label → Label) :
    (t.modify id f).get? other = if id = other then (t.get? other).map f else t.get? other := by
  simp only [get?, modify, List.getElem?_modify]
  split_ifs <;> simp

theorem identity?_modify_self {l : Label} (h : t.get? id = some l) (f : Label → Label) :
    (t.modify id f).identity? id = some (f l).identity := by
  rw [identity?, get?_modify, if_pos rfl, h]
  rfl

theorem identity?_modify_of_ne {other : LabelId} (h : id ≠ other) (f : Label → Label) :
    (t.modify id f).identity? other = t.identity? other := by
  rw [identity?, get?_modify, if_neg h, identity?]

section Congr

variable (h : t'.identity? id = t.identity? id)

include h

theorem parentOf?_congr : t'.parentOf? id = t.parentOf? id := by rw [parentOf?, h, parentOf?]

theorem keyOf?_congr : t'.keyOf? id = t.keyOf? id := by rw [keyOf?, h, keyOf?]

theorem isLive_congr : t'.IsLive id ↔ t.IsLive id := by rw [IsLive, h, IsLive]

end Congr

/-- Tables whose labels have the same identities. -/
theorem identity?_congr (h : t'.labels.map Label.identity = t.labels.map Label.identity)
    (id : LabelId) : t'.identity? id = t.identity? id := by
  simpa [identity?, get?] using congrArg (·[id]?) h

/-- What a name is resolved to is live. -/
theorem isLive_of_resolve? {d : Dialect} {scope : Option LabelId} {name : Text}
    (h : t.resolve? d scope name = some id) : t.IsLive id := by
  -- All searches go through the live labels.
  have hfind : ∀ p : LabelId × Label → Bool, (t.live.find? p).map Prod.fst = some id → t.IsLive id := by
    intro p hp
    obtain ⟨⟨found, l⟩, hfound, rfl⟩ := Option.map_eq_some_iff.1 hp
    exact isLive_iff.2 ⟨l, List.mem_of_find?_eq_some hfound⟩
  unfold resolve? at h
  split_ifs at h
  · exact hfind _ h
  · rcases Option.or_eq_some_iff.1 h with h | ⟨-, h⟩
    · exact hfind _ h
    · exact hfind _ h

end LabelTable

/-! ## The order of declarations -/

/-- A statement that refers only to labels of `before`: with its scope, and where it declares a
sub-label, with the parent of this, which is no sub-label itself. -/
structure Node.InScope (t : LabelTable) (before : List LabelId) (n : Node) : Prop where
  scope : ∀ s ∈ n.scope, s ∈ before
  parent : ∀ id ∈ n.declared?, ∀ p, t.parentOf? id = some (some p) → p ∈ before ∧ t.parentOf? p = some none

/-- Statements that refer only to labels of `before` and to those declared before them. -/
def InOrder (t : LabelTable) : List LabelId → List Node → Prop
  | _, [] => True
  | before, n :: rest => n.InScope t before ∧ InOrder t (before ++ n.declared?.toList) rest

section Order

variable {t t' : LabelTable} {before : List LabelId} {ns ms : List Node}

theorem inOrder_append :
    InOrder t before (ns ++ ms) ↔ InOrder t before ns ∧ InOrder t (before ++ declared ns) ms := by
  induction ns generalizing before with
  | nil => simp [InOrder]
  | cons n rest ih => simp only [List.cons_append, InOrder, ih, declared_cons, List.append_assoc, and_assoc]

theorem InOrder.congr (h : InOrder t before ns)
    (hsame : ∀ id ∈ before ++ declared ns, t'.parentOf? id = t.parentOf? id) : InOrder t' before ns := by
  induction ns generalizing before with
  | nil => trivial
  | cons n rest ih =>
    obtain ⟨hn, hrest⟩ := h
    rw [declared_cons, ← List.append_assoc] at hsame
    refine ⟨⟨hn.scope, fun id hid p hp => ?_⟩, ih hrest hsame⟩
    rw [hsame id (by simp [Option.mem_def.1 hid])] at hp
    obtain ⟨hbefore, hparent⟩ := hn.parent id hid p hp
    exact ⟨hbefore, by rwa [hsame p (by simp [hbefore])]⟩

/-- Every scope is among the labels in front. -/
theorem InOrder.scope_mem (h : InOrder t before ns) {n : Node} (hn : n ∈ ns) {s : LabelId}
    (hs : s ∈ n.scope) : s ∈ before ++ declared ns := by
  induction ns generalizing before with
  | nil => cases hn
  | cons m rest ih =>
    rw [declared_cons, ← List.append_assoc]
    rcases List.mem_cons.1 hn with rfl | hn
    · exact List.mem_append_left _ (List.mem_append_left _ (h.1.scope s hs))
    · exact ih h.2 hn

/-- Every parent is among the labels in front, and has no parent itself. -/
theorem InOrder.parent_mem (h : InOrder t before ns) {id p : LabelId} (hid : id ∈ declared ns)
    (hp : t.parentOf? id = some (some p)) : p ∈ before ++ declared ns ∧ t.parentOf? p = some none := by
  induction ns generalizing before with
  | nil => cases hid
  | cons n rest ih =>
    rw [declared_cons] at hid ⊢
    rw [← List.append_assoc]
    rcases List.mem_append.1 hid with hid | hid
    · obtain ⟨hbefore, hparent⟩ := h.1.parent id (by simpa using hid) p hp
      exact ⟨List.mem_append_left _ (List.mem_append_left _ hbefore), hparent⟩
    · exact ih h.2 hid

/-- Statements stay in order if some are left out that declare nothing. -/
theorem InOrder.sublist (hsub : ns.Sublist ms) (hdeclared : declared ns = declared ms)
    (h : InOrder t before ms) : InOrder t before ns := by
  induction hsub generalizing before with
  | slnil => trivial
  | @cons ns ms m hsub ih =>
    -- Whatever `m` declares would be missing from `ns`.
    have hlen : (declared ns).length ≤ (declared ms).length := (hsub.filterMap _).length_le
    rw [declared_cons] at hdeclared
    have hnone : m.declared?.toList = [] := by
      rw [hdeclared, List.length_append] at hlen
      exact List.length_eq_zero_iff.1 (by omega)
    rw [hnone, List.nil_append] at hdeclared
    have hrest := h.2
    rw [hnone, List.append_nil] at hrest
    exact ih hdeclared hrest
  | @cons_cons ns ms m hsub ih =>
    rw [declared_cons, declared_cons] at hdeclared
    exact ⟨h.1, ih (List.append_cancel_left hdeclared) h.2⟩

end Order

/-- The live labels are those that some statements declare, each once, and the statements refer only to
what is declared before them. -/
structure WellScoped (labels : LabelTable) (ns : List Node) : Prop where
  nodup : (declared ns).Nodup
  live : ∀ id, id ∈ declared ns ↔ labels.IsLive id
  order : InOrder labels [] ns

/-- Only the declarations, their order and the identities of labels count. -/
theorem WellScoped.congr {labels labels' : LabelTable} {ns ms : List Node} (h : WellScoped labels ns)
    (hsame : labels'.labels.map Label.identity = labels.labels.map Label.identity)
    (hdeclared : declared ms = declared ns) (horder : InOrder labels [] ms) : WellScoped labels' ms := by
  have hidentity := LabelTable.identity?_congr hsame
  refine ⟨hdeclared ▸ h.nodup, fun id => ?_, ?_⟩
  · rw [hdeclared, h.live, LabelTable.isLive_congr (hidentity id)]
  · exact horder.congr fun id _ => LabelTable.parentOf?_congr (hidentity id)

/-! ## Parsing lines -/

namespace Parse

/-- What holds while lines are parsed: no label is dropped, statements are in order, and the last label
that is no sub-label was declared. -/
structure Scoped (s : Parse) : Prop where
  declares : declared s.nodes = List.range s.labels.size
  live : ∀ l ∈ s.labels.labels, l.dropped = false
  order : InOrder s.labels [] s.nodes
  parent : ∀ p ∈ s.parent, p < s.labels.size ∧ s.labels.parentOf? p = some none

theorem Scoped.report {s : Parse} (h : s.Scoped) (d : Diagnostic) : (s.report d).Scoped := by
  obtain ⟨errors, heq⟩ := exists_report_eq s d
  rw [heq]
  exact ⟨h.declares, h.live, h.order, h.parent⟩

theorem Scoped.add {s : Parse} (h : s.Scoped) {n : Node} (hscope : ∀ p ∈ n.scope, p ∈ s.parent)
    (hdecl : n.declared? = none) : (s.add n).Scoped := by
  have hdeclared : declared (s.nodes ++ [n]) = declared s.nodes := by simp [declared_cons, hdecl]
  refine ⟨hdeclared.trans h.declares, h.live, inOrder_append.2 ⟨h.order, ⟨?_, ?_⟩, trivial⟩, h.parent⟩
  · intro p hp
    rw [h.declares]
    exact List.mem_range.2 (h.parent p (hscope p hp)).1
  · intro id hid
    simp [hdecl] at hid

theorem parentOf?_add_of_lt {labels : LabelTable} {id : LabelId} (hid : id < labels.size) (l : Label) :
    (labels.add l).parentOf? id = labels.parentOf? id := by
  rw [LabelTable.parentOf?, LabelTable.identity?, LabelTable.get?, LabelTable.add,
    List.getElem?_append_left hid, LabelTable.parentOf?, LabelTable.identity?, LabelTable.get?]

theorem parentOf?_add_size (labels : LabelTable) (l : Label) :
    (labels.add l).parentOf? labels.size = some l.parent := by
  simp [LabelTable.parentOf?, LabelTable.identity?, LabelTable.get?, LabelTable.add, LabelTable.size,
    Label.identity]

/-- A declaration is added together with its label: one without a parent, or one under the last label that
is no sub-label. -/
theorem Scoped.declare {s : Parse} (h : s.Scoped) {l : Label} (hdropped : l.dropped = false)
    (hparent : ∀ p ∈ l.parent, p ∈ s.parent) (tokens : List Token) {parent : Option LabelId}
    (hnext : ∀ p ∈ parent, p ∈ s.parent ∨ p = s.labels.size ∧ l.parent = none) :
    ({ s with labels := s.labels.add l, parent }.add { tokens, element := .label s.labels.size }).Scoped := by
  have hsize : (s.labels.add l).size = s.labels.size + 1 := by simp [LabelTable.add, LabelTable.size]
  have hold : ∀ id < s.labels.size, (s.labels.add l).parentOf? id = s.labels.parentOf? id :=
    fun id hid => parentOf?_add_of_lt hid l
  have hnew := parentOf?_add_size s.labels l
  refine ⟨?_, ?_, inOrder_append.2 ⟨h.order.congr ?_, ⟨fun _ hid => (by cases hid), ?_⟩, trivial⟩, ?_⟩
  · show declared (s.nodes ++ [_]) = List.range (s.labels.add l).size
    rw [hsize, List.range_succ, declared_append, h.declares]
    rfl
  · intro k hk
    rcases List.mem_append.1 hk with hk | hk
    · exact h.live k hk
    · rw [List.mem_singleton.1 hk, hdropped]
  · intro id hid
    rw [List.nil_append, h.declares] at hid
    exact hold id (List.mem_range.1 hid)
  · -- The new label is the only one that the new statement declares.
    intro id hid p hp
    obtain rfl : s.labels.size = id := Option.some.inj hid
    obtain ⟨hlt, htop⟩ := h.parent p (hparent p (Option.some.inj (hnew.symm.trans hp)))
    refine ⟨?_, (hold p hlt).trans htop⟩
    rw [List.nil_append, h.declares]
    exact List.mem_range.2 hlt
  · intro p hp
    show p < (s.labels.add l).size ∧ (s.labels.add l).parentOf? p = some none
    rw [hsize]
    rcases hnext p hp with hp | ⟨rfl, htop⟩
    · obtain ⟨hlt, htop⟩ := h.parent p hp
      exact ⟨Nat.lt_succ_of_lt hlt, (hold p hlt).trans htop⟩
    · exact ⟨Nat.lt_succ_self _, by rw [hnew, htop]⟩

theorem scope_node {arch : Architecture} {parent : Option LabelId} {head : Token} {args : List Token}
    {n : Node} (hn : Statement.node arch parent head args = .ok n) : ∀ p ∈ n.scope, p ∈ parent := by
  obtain ⟨e, -, rfl⟩ := exists_of_map_eq_ok hn
  intro p hp
  simp only at hp
  split_ifs at hp
  · exact hp
  · cases hp

theorem Scoped.step {arch : Architecture} {s s' : Parse} (h : s.Scoped) (hs : Step arch s s') : s'.Scoped := by
  cases hs with
  | orphan | refused => exact h.report _
  | subLabel hsub hparent =>
    refine h.declare rfl ?_ _ fun p hp => .inl hp
    rintro p ⟨⟩
    exact hparent
  | topLabel name colon =>
    refine h.declare rfl (by simp) _ ?_
    rintro p ⟨⟩
    exact .inr ⟨rfl, rfl⟩
  | statement hnode => exact h.add (scope_node hnode) (node_fresh hnode).2

theorem Scoped.lines {s : Parse} (h : s.Scoped) (arch : Architecture) (ls : List Line) :
    (Parse.lines arch s ls).Scoped := lines_induction Scoped.step h ls

theorem scoped_empty : ({} : Parse).Scoped := ⟨rfl, by simp, trivial, by simp⟩

end Parse

namespace Tree

theorem wellScoped_own (arch : Architecture) (r : Preprocessed) :
    WellScoped (own arch r).labels (own arch r).nodes := by
  have hscoped := Parse.scoped_empty.lines arch (Line.ofTokens r.output.tokens)
  have hdeclared : declared (own arch r).nodes = List.range (own arch r).labels.size := by
    rw [nodes_own, Parse.declared_bundle]
    exact hscoped.declares
  refine ⟨hdeclared ▸ List.nodup_range, fun id => ?_, ?_⟩
  · rw [hdeclared, List.mem_range]
    refine ⟨fun hid => ?_, fun hlive => hlive.lt_size⟩
    obtain ⟨l, hl⟩ := LabelTable.exists_get? hid
    exact LabelTable.isLive_iff.2
      ⟨l, LabelTable.mem_live.2 ⟨hl, hscoped.live l (List.mem_of_getElem? hl)⟩⟩
  · rw [nodes_own]
    exact hscoped.order.sublist (Parse.bundle_sublist _ _) (Parse.declared_bundle _ _)

/-! ## Grafting -/

section Graft

variable {t other : Tree} {id : LabelId}

theorem identity?_graft_of_lt (hid : id < t.labels.size) :
    (t.graft other).labels.identity? id = t.labels.identity? id := by
  rw [LabelTable.identity?, LabelTable.identity?, LabelTable.get?, LabelTable.get?, graft,
    List.getElem?_append_left hid]

/-- A grafted label keeps its name, and its parent is grafted too. -/
theorem identity?_graft_add : (t.graft other).labels.identity? (id + t.labels.size) =
    (other.labels.identity? id).map fun (parent, name, dropped) =>
      (parent.map (· + t.labels.size), name, dropped) := by
  have hget : (t.graft other).labels.get? (id + t.labels.size) = (other.labels.get? id).map fun label =>
      { label with parent := label.parent.map (· + t.labels.size), address := none } := by
    simp [LabelTable.get?, graft, LabelTable.size, List.getElem?_append_right]
  rw [LabelTable.identity?, hget, LabelTable.identity?, Option.map_map, Option.map_map]
  rfl

theorem isLive_graft_add :
    (t.graft other).labels.IsLive (id + t.labels.size) ↔ other.labels.IsLive id := by
  rw [LabelTable.IsLive, identity?_graft_add]
  constructor
  · rintro ⟨_, _, h⟩
    obtain ⟨⟨parent, name, dropped⟩, hother, heq⟩ := Option.map_eq_some_iff.1 h
    obtain rfl : dropped = false := congrArg (·.2.2) heq
    exact ⟨parent, name, hother⟩
  · rintro ⟨parent, name, h⟩
    exact ⟨_, name, by rw [h]; rfl⟩

theorem parentOf?_graft_add : (t.graft other).labels.parentOf? (id + t.labels.size) =
    (other.labels.parentOf? id).map (Option.map (· + t.labels.size)) := by
  rw [LabelTable.parentOf?, identity?_graft_add, LabelTable.parentOf?, Option.map_map, Option.map_map]
  rfl

/-- Renumbered statements are in order behind those of the tree that they are grafted onto. -/
theorem inOrder_graft {before : List LabelId} {ns : List Node} (h : InOrder other.labels before ns)
    (front : List LabelId) :
    InOrder (t.graft other).labels (front ++ before.map (· + t.labels.size))
      (ns.map (Node.renumber (· + t.labels.size))) := by
  induction ns generalizing before with
  | nil => trivial
  | cons n rest ih =>
    obtain ⟨hn, hrest⟩ := h
    have hshift : ∀ {id : LabelId}, id ∈ before →
        id + t.labels.size ∈ front ++ before.map (· + t.labels.size) :=
      fun hid => List.mem_append_right _ (List.mem_map_of_mem hid)
    refine ⟨⟨?_, ?_⟩, ?_⟩
    · intro s hs
      obtain ⟨k, hk, rfl⟩ := Option.map_eq_some_iff.1 hs
      exact hshift (hn.scope k hk)
    · intro id hid p hp
      -- A parent is renumbered along with its sub-label.
      rw [declared?_renumber] at hid
      obtain ⟨k, hk, rfl⟩ := Option.map_eq_some_iff.1 hid
      rw [parentOf?_graft_add] at hp
      obtain ⟨parent, hparent, hshifted⟩ := Option.map_eq_some_iff.1 hp
      obtain ⟨q, rfl, rfl⟩ := Option.map_eq_some_iff.1 hshifted
      obtain ⟨hbefore, htop⟩ := hn.parent k hk q hparent
      exact ⟨hshift hbefore, by rw [parentOf?_graft_add, htop]; rfl⟩
    · have hmap : (n.renumber (· + t.labels.size)).declared?.toList =
          n.declared?.toList.map (· + t.labels.size) := by
        rw [declared?_renumber]
        cases n.declared? <;> rfl
      rw [hmap, List.append_assoc, ← List.map_append]
      exact ih hrest

theorem wellScoped_graft (h : WellScoped t.labels t.nodes) (hother : WellScoped other.labels other.nodes) :
    WellScoped (t.graft other).labels (t.graft other).nodes := by
  have hold : ∀ id ∈ declared t.nodes, id < t.labels.size := fun id hid => ((h.live id).1 hid).lt_size
  refine ⟨?_, fun id => ?_, ?_⟩
  · exact (Declares.graft ⟨h.nodup, hold⟩
      ⟨hother.nodup, fun id hid => ((hother.live id).1 hid).lt_size⟩).nodup
  · rw [declared_graft, List.mem_append]
    -- Labels of the tree keep their places, and those of the other one follow.
    rcases Nat.lt_or_ge id t.labels.size with hid | hid
    · have hlive : (t.graft other).labels.IsLive id ↔ t.labels.IsLive id := by
        rw [LabelTable.IsLive, identity?_graft_of_lt hid, LabelTable.IsLive]
      rw [hlive, ← h.live, or_iff_left]
      rintro hshifted
      obtain ⟨k, -, rfl⟩ := List.mem_map.1 hshifted
      exact Nat.not_lt.2 (Nat.le_add_left _ _) hid
    · obtain ⟨k, rfl⟩ := Nat.exists_eq_add_of_le' hid
      rw [isLive_graft_add, ← hother.live, or_iff_right fun hmem => Nat.not_lt.2 hid (hold _ hmem),
        List.mem_map_of_injective (add_left_injective _)]
  · rw [nodes_graft, inOrder_append]
    refine ⟨h.order.congr fun id hid => ?_, ?_⟩
    · rw [List.nil_append] at hid
      rw [LabelTable.parentOf?, identity?_graft_of_lt (hold id hid), LabelTable.parentOf?]
    · have hshifted := inOrder_graft (t := t) hother.order (declared t.nodes)
      rwa [List.map_nil, List.append_nil] at hshifted

end Graft

end Tree

/-! ## Dropping duplicates -/

namespace Link

/-- The label that took the place of a label, which is the label itself if it was not dropped. -/
def Duplicates.target (s : Duplicates) (id : LabelId) : LabelId := (s.moved.lookup id).getD id

theorem dropDuplicate_of_not_label (s : Duplicates) {n : Node} (hn : n.declared? = none) :
    dropDuplicate s n = (s, some { n with scope := n.scope.map s.target }) := by
  obtain ⟨tokens, element, scope, address⟩ := n
  cases element <;> first | rfl | cases hn

theorem dropDuplicate_of_unknown (s : Duplicates) {n : Node} {id : LabelId} (hn : n.declared? = some id)
    (hl : s.labels.get? id = none) :
    dropDuplicate s n = (s, some { n with scope := n.scope.map s.target }) := by
  unfold dropDuplicate
  simp only [Node.element_of_declared? hn, hl]
  rfl

/-- A label is looked up under the parent that took the place of its own, and dropped if it is found. -/
theorem dropDuplicate_of_label (s : Duplicates) {n : Node} {id : LabelId} {l : Label}
    (hn : n.declared? = some id) (hl : s.labels.get? id = some l) :
    dropDuplicate s n =
      let labels := s.labels.modify id fun k => { k with parent := l.parent.map s.target }
      match s.seen.lookup (l.parent.map s.target, l.name) with
      | some first =>
        ({ s with
          labels := labels.modify id fun k => { k with dropped := true }
          moved := (id, first) :: s.moved
          diagnostics := s.diagnostics ++ [.error .labelDuplicate n.tokens] }, none)
      | none =>
        ({ s with labels, seen := ((l.parent.map s.target, l.name), id) :: s.seen },
          some { n with scope := n.scope.map s.target }) := by
  unfold dropDuplicate
  simp only [Node.element_of_declared? hn, hl]
  rfl

/-- What holds while duplicates are dropped among the labels of `labels`: of the statements `ns`, those of
`ks` were kept, with the state `s`. -/
structure Settled (labels : LabelTable) (ns : List Node) (s : Duplicates) (ks : List Node) : Prop where
  /-- Labels that are not declared yet are as they were. -/
  untouched : ∀ id ∉ declared ns, s.labels.identity? id = labels.identity? id
  kept : ∀ id ∈ declared ks, id ∈ declared ns
  live : ∀ id ∈ declared ns, (id ∈ declared ks ↔ s.labels.IsLive id)
  order : InOrder s.labels [] ks
  /-- A label is moved to one that was kept, which is no sub-label either if the label was none. -/
  target : ∀ id ∈ declared ns, s.target id ∈ declared ks
  top : ∀ id ∈ declared ns, labels.parentOf? id = some none → s.labels.parentOf? (s.target id) = some none
  unmoved : ∀ id ∉ declared ns, s.target id = id
  /-- The labels that were kept are found by their parents and names. -/
  seen : ∀ key id, s.seen.lookup key = some id ↔ id ∈ declared ks ∧ s.labels.keyOf? id = some key

namespace Settled

variable {labels : LabelTable} {ns ks : List Node} {s : Duplicates} {n : Node} {id : LabelId}

/-- The scope of a statement is settled once the statement is reached. -/
theorem scope_mem (h : Settled labels ns s ks) (hn : n.InScope labels (declared ns)) :
    ∀ k ∈ n.scope.map s.target, k ∈ declared ks := by
  intro k hk
  obtain ⟨p, hp, rfl⟩ := Option.map_eq_some_iff.1 hk
  exact h.target p (hn.scope p hp)

theorem step_of_not_label (h : Settled labels ns s ks) (hn : n.InScope labels (declared ns))
    (hlabel : n.declared? = none) :
    Settled labels (ns ++ [n]) s (ks ++ [{ n with scope := n.scope.map s.target }]) := by
  have hdeclared : ∀ (ms : List Node) (scope : Option LabelId),
      declared (ms ++ [{ n with scope }]) = declared ms := by
    intro ms scope
    have hnone : Node.declared? { n with scope } = none := hlabel
    simp [declared_cons, hnone]
  have hns : declared (ns ++ [n]) = declared ns := hdeclared ns n.scope
  refine ⟨?_, ?_, ?_, inOrder_append.2 ⟨h.order, ⟨?_, ?_⟩, trivial⟩, ?_, ?_, ?_, ?_⟩
  · rw [hns]; exact h.untouched
  · rw [hns, hdeclared]; exact h.kept
  · rw [hns, hdeclared]; exact h.live
  · exact h.scope_mem hn
  · intro id hid
    exact absurd (hlabel.symm.trans hid) nofun
  · rw [hns, hdeclared]; exact h.target
  · rw [hns]; exact h.top
  · rw [hns]; exact h.unmoved
  · rw [hdeclared]; exact h.seen

/-- The parent of a label is settled once its declaration is reached. -/
theorem parent_mem (h : Settled labels ns s ks) (hn : n.InScope labels (declared ns))
    (hid : n.declared? = some id) {parent : Option LabelId} (hparent : labels.parentOf? id = some parent) :
    ∀ q ∈ parent.map s.target, q ∈ declared ks ∧ s.labels.parentOf? q = some none := by
  intro q hq
  obtain ⟨p, rfl, rfl⟩ := Option.map_eq_some_iff.1 hq
  obtain ⟨hbefore, htop⟩ := hn.parent id hid p hparent
  exact ⟨h.target p hbefore, h.top p hbefore htop⟩

/-- Steps that change no label but the one that is declared next keep the order of what was kept. -/
theorem order_congr (h : Settled labels ns s ks) (hnew : id ∉ declared ns) {t : LabelTable}
    (hothers : ∀ other ≠ id, t.identity? other = s.labels.identity? other) : InOrder t [] ks := by
  refine h.order.congr fun other hother => LabelTable.parentOf?_congr (hothers other ?_)
  rintro rfl
  exact hnew (h.kept other (by simpa using hother))

theorem declared_concat (hid : n.declared? = some id) (ms : List Node) (scope : Option LabelId) :
    declared (ms ++ [{ n with scope }]) = declared ms ++ [id] := by
  have hself : Node.declared? { n with scope } = some id := hid
  simp [declared_cons, hself]

/-- A step changes no label but the one that it declares. -/
theorem untouched_concat (h : Settled labels ns s ks) (hid : n.declared? = some id) {t : LabelTable}
    (hothers : ∀ other ≠ id, t.identity? other = s.labels.identity? other) :
    ∀ other ∉ declared (ns ++ [n]), t.identity? other = labels.identity? other := by
  intro other hother
  rw [declared_concat hid ns n.scope, List.mem_append, List.mem_singleton, not_or] at hother
  rw [hothers other hother.2, h.untouched other hother.1]

/-- A label with a new key is found by it, and the others are found as before. -/
theorem lookup_seen_cons (h : Settled labels ns s ks) {t : LabelTable}
    (hkeys : ∀ other ∈ declared ks, t.keyOf? other = s.labels.keyOf? other) {new : Option LabelId × Text}
    (hkey : t.keyOf? id = some new) (hfirst : s.seen.lookup new = none) (key : Option LabelId × Text)
    (other : LabelId) :
    ((new, id) :: s.seen).lookup key = some other ↔ other ∈ declared ks ++ [id] ∧ t.keyOf? other = some key := by
  rw [List.lookup_cons, List.mem_append, List.mem_singleton]
  by_cases hsame : key = new
  · -- No label with this key was kept before.
    have hnone : ∀ k ∈ declared ks, t.keyOf? k ≠ some key := by
      intro k hk hkeyed
      have hfound := (h.seen key k).2 ⟨hk, by rwa [← hkeys k hk]⟩
      rw [hsame, hfirst] at hfound
      cases hfound
    rw [beq_iff_eq.2 hsame, hsame]
    constructor
    · rintro ⟨⟩
      exact ⟨.inr rfl, hkey⟩
    · rintro ⟨hmem | rfl, hkeyed⟩
      · exact absurd (hsame ▸ hkeyed) (hnone other hmem)
      · rfl
  · rw [beq_eq_false_iff_ne.2 hsame]
    refine (h.seen key other).trans ?_
    constructor
    · rintro ⟨hmem, hkeyed⟩
      exact ⟨.inl hmem, by rwa [hkeys other hmem]⟩
    · rintro ⟨hmem | rfl, hkeyed⟩
      · exact ⟨hmem, by rwa [← hkeys other hmem]⟩
      · exact absurd (Option.some.inj (hkeyed.symm.trans hkey)) hsame

/-- A duplicate is dropped, and moved to the label that it duplicates. -/
theorem drop (h : Settled labels ns s ks) (hid : n.declared? = some id) (hnew : id ∉ declared ns)
    {s' : Duplicates} (hothers : ∀ other ≠ id, s'.labels.identity? other = s.labels.identity? other)
    (hdropped : ¬ s'.labels.IsLive id) {first : LabelId} (hfirst : first ∈ declared ks)
    (htop : labels.parentOf? id = some none → s.labels.parentOf? first = some none)
    (hmoved : s'.moved = (id, first) :: s.moved) (hseen : s'.seen = s.seen) :
    Settled labels (ns ++ [n]) s' ks := by
  have hself : s'.target id = first := by simp [Duplicates.target, hmoved]
  have htarget : ∀ other ≠ id, s'.target other = s.target other := by
    intro other hne
    rw [Duplicates.target, hmoved, List.lookup_cons, beq_eq_false_iff_ne.2 hne, Duplicates.target]
  have hne : ∀ other ∈ declared ns, other ≠ id := fun _ hother => ne_of_mem_of_not_mem hother hnew
  have hns := declared_concat hid ns n.scope
  refine ⟨h.untouched_concat hid hothers, ?_, ?_, h.order_congr hnew hothers, ?_, ?_, ?_, ?_⟩
  · intro other hother
    exact hns ▸ List.mem_append_left _ (h.kept other hother)
  · intro other hother
    rcases List.mem_append.1 (hns ▸ hother) with hother | hother
    · rw [h.live other hother, LabelTable.isLive_congr (hothers other (hne other hother))]
    · obtain rfl := List.mem_singleton.1 hother
      exact iff_of_false (fun hkept => hnew (h.kept other hkept)) hdropped
  · intro other hother
    rcases List.mem_append.1 (hns ▸ hother) with hother | hother
    · rw [htarget other (hne other hother)]
      exact h.target other hother
    · rwa [List.mem_singleton.1 hother, hself]
  · intro other hother hparent
    -- Labels are moved to labels that were kept, whose parents have not changed.
    have hkept : ∀ k ∈ declared ks, s'.labels.parentOf? k = s.labels.parentOf? k := fun k hk =>
      LabelTable.parentOf?_congr (hothers k (hne k (h.kept k hk)))
    rcases List.mem_append.1 (hns ▸ hother) with hother | hother
    · rw [htarget other (hne other hother), hkept _ (h.target other hother)]
      exact h.top other hother hparent
    · obtain rfl := List.mem_singleton.1 hother
      rw [hself, hkept first hfirst]
      exact htop hparent
  · intro other hother
    rw [hns, List.mem_append, List.mem_singleton, not_or] at hother
    rw [htarget other hother.2, h.unmoved other hother.1]
  · intro key other
    rw [hseen, h.seen]
    refine and_congr_right fun hother => ?_
    rw [LabelTable.keyOf?_congr (hothers other (hne other (h.kept other hother)))]

/-- A label that is no duplicate is kept under its new parent. -/
theorem keep (h : Settled labels ns s ks) (hn : n.InScope labels (declared ns))
    (hid : n.declared? = some id) (hnew : id ∉ declared ns) {s' : Duplicates}
    (hothers : ∀ other ≠ id, s'.labels.identity? other = s.labels.identity? other)
    {parent : Option LabelId} {name : Text} (hparent : labels.parentOf? id = some parent)
    (hlabel : s'.labels.identity? id = some (parent.map s.target, name, false))
    (hfirst : s.seen.lookup (parent.map s.target, name) = none) (hmoved : s'.moved = s.moved)
    (hseen : s'.seen = ((parent.map s.target, name), id) :: s.seen) :
    Settled labels (ns ++ [n]) s' (ks ++ [{ n with scope := n.scope.map s.target }]) := by
  have htarget : s'.target = s.target := by
    funext other
    rw [Duplicates.target, hmoved, Duplicates.target]
  have hne : ∀ other ∈ declared ns, other ≠ id := fun _ hother => ne_of_mem_of_not_mem hother hnew
  have hns := declared_concat hid ns n.scope
  have hks := declared_concat hid ks (n.scope.map s.target)
  have hkey : s'.labels.keyOf? id = some (parent.map s.target, name) := by
    rw [LabelTable.keyOf?, hlabel]
    rfl
  have hkeys : ∀ other ∈ declared ks, s'.labels.keyOf? other = s.labels.keyOf? other := fun other hother =>
    LabelTable.keyOf?_congr (hothers other (hne other (h.kept other hother)))
  refine ⟨h.untouched_concat hid hothers, ?_, ?_,
    inOrder_append.2 ⟨h.order_congr hnew hothers, ⟨h.scope_mem hn, ?_⟩, trivial⟩, ?_, ?_, ?_, ?_⟩
  · intro other hother
    rw [hks, List.mem_append] at hother
    rw [hns, List.mem_append]
    exact hother.imp_left (h.kept other)
  · intro other hother
    rw [hks, List.mem_append]
    rcases List.mem_append.1 (hns ▸ hother) with hother | hother
    · rw [or_iff_left fun hmem => hne other hother (List.mem_singleton.1 hmem), h.live other hother,
        LabelTable.isLive_congr (hothers other (hne other hother))]
    · exact iff_of_true (.inr hother) ⟨_, _, List.mem_singleton.1 hother ▸ hlabel⟩
  · -- The parent was kept already, since it is declared in front of the label.
    intro other hother q hq
    obtain rfl : id = other := Option.some.inj (hid.symm.trans hother)
    have hq' : q ∈ parent.map s.target := by
      rw [LabelTable.parentOf?, hlabel] at hq
      exact Option.some.inj hq
    obtain ⟨hmem, htop⟩ := h.parent_mem hn hid hparent q hq'
    rw [LabelTable.parentOf?_congr (hothers q (hne q (h.kept q hmem)))]
    exact ⟨hmem, htop⟩
  · intro other hother
    rw [htarget, hks, List.mem_append]
    rcases List.mem_append.1 (hns ▸ hother) with hother | hother
    · exact .inl (h.target other hother)
    · obtain rfl := List.mem_singleton.1 hother
      exact .inr (by rw [h.unmoved other hnew]; exact List.mem_singleton_self other)
  · intro other hother htop
    rw [htarget]
    rcases List.mem_append.1 (hns ▸ hother) with hother | hother
    · rw [LabelTable.parentOf?_congr (hothers _ (hne _ (h.kept _ (h.target other hother))))]
      exact h.top other hother htop
    · obtain rfl := List.mem_singleton.1 hother
      obtain rfl : parent = none := Option.some.inj (hparent.symm.trans htop)
      rw [h.unmoved other hnew, LabelTable.parentOf?, hlabel]
      rfl
  · intro other hother
    rw [hns, List.mem_append, List.mem_singleton, not_or] at hother
    rw [htarget, h.unmoved other hother.1]
  · rw [hseen, hks]
    exact h.lookup_seen_cons hkeys hkey hfirst

/-- Once a statement is reached, everything that it refers to is settled, and it is settled itself. -/
theorem step (h : Settled labels ns s ks) (hn : n.InScope labels (declared ns))
    (hnew : ∀ id ∈ n.declared?, id ∉ declared ns ∧ labels.IsLive id) :
    Settled labels (ns ++ [n]) (dropDuplicate s n).1 (ks ++ (dropDuplicate s n).2.toList) := by
  cases hid : n.declared? with
  | none =>
    rw [dropDuplicate_of_not_label s hid]
    exact h.step_of_not_label hn hid
  | some id =>
    obtain ⟨hfresh, parent, name, hlive⟩ := hnew id hid
    have hidentity := (h.untouched id hfresh).trans hlive
    obtain ⟨l, hl, hl'⟩ := Option.map_eq_some_iff.1 hidentity
    obtain ⟨rfl, rfl, hdropped⟩ : l.parent = parent ∧ l.name = name ∧ l.dropped = false := by
      simpa [Label.identity] using hl'
    have hparent : labels.parentOf? id = some l.parent := by
      rw [LabelTable.parentOf?, hlive]
      rfl
    have hmoved : (s.labels.modify id fun k => { k with parent := l.parent.map s.target }).get? id =
        some { l with parent := l.parent.map s.target } := by
      rw [LabelTable.get?_modify, if_pos rfl, hl]
      rfl
    have hothers : ∀ other ≠ id, ∀ f : Label → Label,
        (s.labels.modify id f).identity? other = s.labels.identity? other :=
      fun other hne f => LabelTable.identity?_modify_of_ne (Ne.symm hne) f
    rw [dropDuplicate_of_label s hid hl]
    cases hfirst : s.seen.lookup (l.parent.map s.target, l.name) with
    | none =>
      refine h.keep hn hid hfresh (fun other hne => hothers other hne _) hparent ?_ hfirst rfl rfl
      rw [LabelTable.identity?, hmoved, ← hdropped]
      rfl
    | some first =>
      obtain ⟨hmem, hkey⟩ := (h.seen _ first).1 hfirst
      rw [Option.toList_none, List.append_nil]
      refine h.drop hid hfresh (fun other hne => ?_) ?_ hmem ?_ rfl rfl
      · exact (LabelTable.identity?_modify_of_ne (Ne.symm hne) _).trans (hothers other hne _)
      · rintro ⟨_, _, hlabel⟩
        rw [LabelTable.identity?_modify_self hmoved] at hlabel
        cases hlabel
      · -- The label that was found has the same parent, which is none if the duplicate had none.
        intro htop
        obtain ⟨⟨first_parent, first_name, _⟩, hfound, heq⟩ := Option.map_eq_some_iff.1 hkey
        obtain ⟨hsame, -⟩ : first_parent = l.parent.map s.target ∧ first_name = l.name := by
          simpa using heq
        have hnone : l.parent = none := Option.some.inj (hparent.symm.trans htop)
        rw [LabelTable.parentOf?, hfound, Option.map_some, hsame, hnone]
        rfl

end Settled

/-- All statements are settled in the end. -/
theorem settled_nodes {labels : LabelTable} {ns : List Node} (horder : InOrder labels [] ns)
    (hnodup : (declared ns).Nodup) (hlive : ∀ id ∈ declared ns, labels.IsLive id) :
    Settled labels ns (Section.rebuild.nodes dropDuplicate { labels } ns).1
      (Section.rebuild.nodes dropDuplicate { labels } ns).2 := by
  induction ns using List.reverseRecOn with
  | nil =>
    refine ⟨fun _ _ => rfl, fun _ hid => hid, nofun, trivial, nofun, nofun, fun _ _ => rfl, ?_⟩
    intro key id
    exact iff_of_false nofun nofun
  | append_singleton ns n ih =>
    obtain ⟨hns, hn, -⟩ := inOrder_append.1 horder
    rw [declared_append] at hnodup hlive
    have hih := ih hns (List.nodup_append.1 hnodup).1 fun id hid => hlive id (List.mem_append_left _ hid)
    rw [Section.rebuild_nodes_append]
    have hstep := hih.step hn fun id hid => ?_
    · simpa [Section.rebuild.nodes] using hstep
    · have hmem : id ∈ declared [n] := by simpa [declared_cons] using hid
      exact ⟨fun hold => (List.nodup_append.1 hnodup).2.2 id hold id hmem rfl,
        hlive id (List.mem_append_right _ hmem)⟩

/-- What was kept differs in parents or names. -/
theorem Settled.unique {labels : LabelTable} {ns ks : List Node} {s : Duplicates}
    (h : Settled labels ns s ks) {id other : LabelId} (hid : id ∈ declared ks) (hother : other ∈ declared ks)
    {key : Option LabelId × Text} (hkey : s.labels.keyOf? id = some key)
    (hsame : s.labels.keyOf? other = some key) : id = other := by
  have hfound := (h.seen key id).2 ⟨hid, hkey⟩
  have hfound' := (h.seen key other).2 ⟨hother, hsame⟩
  exact Option.some.inj (hfound.symm.trans hfound')

/-! ## Resolving references -/

/-- Statements keep what they declare and their scope; only an export may be removed. -/
theorem scope_resolve (arch : Architecture) (s : References) (n : Node) :
    (∀ k ∈ (resolve arch s n).2, k.scope = n.scope) ∧
      ((resolve arch s n).2 = none → n.declared? = none) := by
  unfold resolve
  split
  next hn =>
    split
    · exact ⟨by simp, fun _ => by rw [Node.declared?, hn]⟩
    · simp
  · simp
  · simp
  · simp

/-- Everything that a statement refers to once it is resolved is live. -/
theorem isLive_of_mem_resolve {arch : Architecture} {s : References} {n k : Node}
    (hk : k ∈ (resolve arch s n).2) :
    (∀ op ∈ k.element.operands, ∀ id ∈ op.ref, s.labels.IsLive id) ∧
      ∀ id ∈ k.element.labelId?, n.declared? = some id ∨ s.labels.IsLive id := by
  have hbind : ∀ op id, (bind arch.dialect s.labels n.scope op).ref = some id → s.labels.IsLive id := by
    intro op id href
    simp only [bind] at href
    split_ifs at href
    exact LabelTable.isLive_of_resolve? href
  rcases resolve_cases hk with ⟨found, name, id, -, hid, rfl⟩ | ⟨hn, rfl⟩
  · -- An export refers to the label that it names.
    have hlive := LabelTable.isLive_of_resolve? hid
    refine ⟨?_, ?_⟩
    · intro op hop k hk
      rw [List.mem_singleton.1 hop] at hk
      cases hk
      exact hlive
    · rintro k ⟨⟩
      exact .inr hlive
  · refine ⟨?_, ?_⟩
    · intro op hop id hid
      rw [Element.operands_mapOperands] at hop
      obtain ⟨op', -, rfl⟩ := List.mem_map.1 hop
      exact hbind op' id hid
    · -- Of the other statements only declarations have a label of their own.
      intro id hid
      refine .inl ?_
      cases helement : n.element with
      | label k =>
        rw [helement] at hid
        rw [Node.declared?, helement]
        exact hid
      | global found name => simp [Node.kind, helement, Element.kind] at hn
      | _ => simp [helement, Element.mapOperands, Element.labelId?] at hid

end Link

/-- Declarations and their order are kept where every step keeps what a statement declares and its scope,
and removes only statements that declare nothing. -/
theorem Section.inOrder_rebuild_nodes {σ : Type} {step : σ → Node → σ × Option Node}
    (hkeep : ∀ s n, ∀ k ∈ (step s n).2, k.declared? = n.declared? ∧ k.scope = n.scope)
    (hdrop : ∀ s n, (step s n).2 = none → n.declared? = none) (s : σ) {t : LabelTable}
    {before : List LabelId} {ns : List Node} (h : InOrder t before ns) :
    declared (rebuild.nodes step s ns).2 = declared ns ∧
      InOrder t before (rebuild.nodes step s ns).2 := by
  induction ns generalizing s before with
  | nil => exact ⟨rfl, h⟩
  | cons n rest ih =>
    obtain ⟨hn, hrest⟩ := h
    obtain ⟨hdeclared, horder⟩ := ih (step s n).1 hrest
    show declared ((step s n).2.toList ++ _) = _ ∧ InOrder t before ((step s n).2.toList ++ _)
    -- A statement that is removed declared nothing, so that the ones behind it see the same declarations.
    cases hk : (step s n).2 with
    | none =>
      rw [hdrop s n hk, Option.toList_none, List.append_nil] at horder
      rw [declared_cons, hdrop s n hk]
      exact ⟨hdeclared, horder⟩
    | some k =>
      obtain ⟨hsame, hscope⟩ := hkeep s n k hk
      rw [Option.toList_some, List.singleton_append, declared_cons, declared_cons, hdeclared, InOrder, hsame]
      exact ⟨rfl, ⟨hscope ▸ hn.scope, hsame ▸ hn.parent⟩, horder⟩

/-! ## Linked trees -/

namespace Tree

/-- Labels, declarations and references of a tree fit together. -/
structure Linked (t : Tree) : Prop where
  /-- Live labels differ in their parents or names. -/
  unique : ∀ x ∈ t.labels.live, ∀ y ∈ t.labels.live, x.2.parent = y.2.parent → x.2.name = y.2.name →
    x.1 = y.1
  /-- Parents are live and have no parents. -/
  parents : ∀ x ∈ t.labels.live, ∀ p ∈ x.2.parent, ∃ l, (p, l) ∈ t.labels.live ∧ l.parent = none
  scopes : ∀ n ∈ t.nodes, ∀ id ∈ n.scope, t.labels.IsLive id
  refs : ∀ n ∈ t.nodes, ∀ op ∈ n.element.operands, ∀ id ∈ op.ref, t.labels.IsLive id
  /-- What is declared or exported is live. -/
  labels : ∀ n ∈ t.nodes, ∀ id ∈ n.element.labelId?, t.labels.IsLive id
  /-- Every live label has one declaration. -/
  declared : ∀ id, t.labels.IsLive id → (declared t.nodes).count id = 1

section Link

variable {t : Tree} (h : WellScoped t.labels t.nodes) (arch : Architecture)

include h

theorem settled_deduplicated : Link.Settled t.labels t.nodes t.deduplicated.1 t.deduplicated.2 :=
  Link.settled_nodes h.order h.nodup fun id => (h.live id).1

theorem wellScoped_deduplicated : WellScoped t.deduplicated.1.labels t.deduplicated.2 := by
  have hsettled := settled_deduplicated h
  refine ⟨?_, fun id => ?_, hsettled.order⟩
  · refine h.nodup.sublist (Section.declared_rebuild_sublist ?_ _ _)
    intro s n k hk
    rw [Node.declared?, (Link.address_dropDuplicate s n k hk).2]
    rfl
  · by_cases hid : id ∈ EightBit.declared t.nodes
    · exact hsettled.live id hid
    · -- What is not declared was not live before, and is as it was.
      refine iff_of_false (fun hkept => hid (hsettled.kept id hkept)) fun hlive => hid ?_
      rwa [h.live, ← LabelTable.isLive_congr (hsettled.untouched id hid)]

omit h in
theorem identity_resolved : (t.link arch).labels.labels.map Label.identity =
    t.deduplicated.1.labels.labels.map Label.identity := by
  rw [labels_link, map_resolved _ fun _ => rfl]

/-- Linking keeps declarations in order, so that a linked tree may be imported and linked once more. -/
theorem wellScoped_link : WellScoped (t.link arch).labels (t.link arch).nodes := by
  have hscoped := wellScoped_deduplicated h
  obtain ⟨hdeclared, horder⟩ := Section.inOrder_rebuild_nodes
    (fun s n k hk => ⟨(Link.address_resolve arch s n k hk).2, (Link.scope_resolve arch s n).1 k hk⟩)
    (fun s n => (Link.scope_resolve arch s n).2) { labels := t.deduplicated.1.labels } hscoped.order
  refine hscoped.congr (identity_resolved arch) ?_ ?_
  · rw [nodes_link]
    exact hdeclared
  · rw [nodes_link]
    exact horder

/-- What a statement refers to once it is resolved is live in the end. -/
theorem isLive_of_mem_link {k : Node} (hk : k ∈ (t.link arch).nodes) :
    (∀ op ∈ k.element.operands, ∀ id ∈ op.ref, (t.link arch).labels.IsLive id) ∧
      ∀ id ∈ k.element.labelId?, (t.link arch).labels.IsLive id := by
  have hscoped := wellScoped_link h arch
  rw [nodes_link] at hk
  obtain ⟨before, n, after, hns, hn⟩ := Section.exists_of_mem_rebuild_nodes hk
  obtain ⟨hrefs, hlabels⟩ := Link.isLive_of_mem_resolve hn
  have hlive : ∀ id, LabelTable.IsLive (Section.rebuild.nodes (Link.resolve arch)
      { labels := t.deduplicated.1.labels } before).1.labels id → (t.link arch).labels.IsLive id := by
    -- Exports in front of the statement have not changed which labels are live.
    have hsame := Section.rebuild_nodes_state
      (P := fun s => s.labels.labels.map Label.identity = t.deduplicated.1.labels.labels.map Label.identity)
      (fun s n hs => (Link.map_resolve _ (fun _ => rfl) arch s n).trans hs)
      (s := { labels := t.deduplicated.1.labels }) rfl before
    intro id hid
    rwa [LabelTable.isLive_congr (LabelTable.identity?_congr ((identity_resolved arch).trans hsame.symm) id)]
  refine ⟨fun op hop id hid => hlive id (hrefs op hop id hid), fun id hid => ?_⟩
  rcases hlabels id hid with hdeclared | hid
  · rw [← hscoped.live, nodes_link]
    exact List.mem_filterMap.2 ⟨k, hk, by rw [(Link.address_resolve arch _ n k hn).2, hdeclared]⟩
  · exact hlive id hid

theorem linked_link : (t.link arch).Linked := by
  have hscoped := wellScoped_link h arch
  have hidentity := LabelTable.identity?_congr (identity_resolved (t := t) arch)
  -- Live labels are those that were kept, with the keys that they were kept under.
  have hkept : ∀ {x : LabelId × Label}, x ∈ (t.link arch).labels.live →
      x.1 ∈ EightBit.declared t.deduplicated.2 ∧
        t.deduplicated.1.labels.keyOf? x.1 = some (x.2.parent, x.2.name) := by
    rintro ⟨id, l⟩ hx
    have hlive : (t.link arch).labels.IsLive id := LabelTable.isLive_iff.2 ⟨l, hx⟩
    refine ⟨?_, ?_⟩
    · rwa [(wellScoped_deduplicated h).live, ← LabelTable.isLive_congr (hidentity id)]
    · rw [← LabelTable.keyOf?_congr (hidentity id), LabelTable.keyOf?, LabelTable.identity?,
        (LabelTable.mem_live.1 hx).1]
      rfl
  refine ⟨?_, ?_, ?_, fun n hn => (isLive_of_mem_link h arch hn).1,
    fun n hn => (isLive_of_mem_link h arch hn).2, ?_⟩
  · intro x hx y hy hparent hname
    refine (settled_deduplicated h).unique (hkept hx).1 (hkept hy).1 (hkept hx).2 ?_
    rw [hparent, hname]
    exact (hkept hy).2
  · rintro ⟨id, l⟩ hx p hp
    have hid := (hscoped.live id).2 (LabelTable.isLive_iff.2 ⟨l, hx⟩)
    have hparent : (t.link arch).labels.parentOf? id = some (some p) := by
      rw [LabelTable.parentOf?, LabelTable.identity?, (LabelTable.mem_live.1 hx).1]
      exact congrArg some hp
    -- The parent is declared in front of its sub-label, and is no sub-label itself.
    obtain ⟨hmem, htop⟩ := hscoped.order.parent_mem hid hparent
    obtain ⟨k, hk⟩ := LabelTable.isLive_iff.1 ((hscoped.live p).1 hmem)
    refine ⟨k, hk, ?_⟩
    rw [LabelTable.parentOf?, LabelTable.identity?, (LabelTable.mem_live.1 hk).1] at htop
    exact Option.some.inj htop
  · intro n hn id hid
    exact (hscoped.live id).1 (hscoped.order.scope_mem hn hid)
  · intro id hid
    exact List.count_eq_one_of_mem hscoped.nodup ((hscoped.live id).2 hid)

end Link

/-! ## Parsed trees -/

/-- Trees obtained from preprocessed files, by parsing and assembling; so are the imports. -/
inductive FromParse : Tree → Prop
  | parse (arch : Architecture) (r : Preprocessed) (himports : ∀ t ∈ r.output.imports, FromParse t) :
    FromParse (Tree.parse arch r)
  | assemble (a : Assembler) {t : Tree} (ht : FromParse t) (m : Memory) {out : Assembled}
    (hout : a.assemble t m = some out) : FromParse out.tree

theorem wellScoped_ofPreprocessed (arch : Architecture) (r : Preprocessed)
    (himports : ∀ t ∈ r.output.imports, WellScoped t.labels t.nodes) :
    WellScoped (ofPreprocessed arch r).labels (ofPreprocessed arch r).nodes := by
  rw [ofPreprocessed_eq]
  exact List.foldlRecOn (motive := fun t : Tree => WellScoped t.labels t.nodes) _ _ (wellScoped_own arch r)
    fun t h other hother => wellScoped_graft h (himports other hother)

/-- Addresses do not count for the order of statements. -/
theorem inOrder_bare {labels : LabelTable} {before : List LabelId} {ns : List Node} :
    InOrder labels before (ns.map Node.bare) ↔ InOrder labels before ns := by
  induction ns generalizing before with
  | nil => exact Iff.rfl
  | cons n rest ih =>
    exact and_congr ⟨fun h => ⟨h.scope, h.parent⟩, fun h => ⟨h.scope, h.parent⟩⟩ ih

theorem wellScoped_layout {t : Tree} (h : WellScoped t.labels t.nodes) (arch : Architecture)
    (origin : UInt64) :
    WellScoped (t.layout arch origin).1.labels (t.layout arch origin).1.nodes := by
  refine h.congr (Layout.map_labels_run arch _ (fun _ _ => rfl) origin t.labels t.nodes) ?_ ?_
  · rw [nodes_layout, Layout.declared_run]
  · rw [← inOrder_bare, bare_layout, inOrder_bare]
    exact h.order

theorem FromParse.wellScoped {t : Tree} (h : t.FromParse) : WellScoped t.labels t.nodes := by
  induction h with
  | parse arch r _ ih => exact wellScoped_link (wellScoped_ofPreprocessed arch r ih) arch
  | assemble a _ m hout ih =>
    obtain ⟨-, rfl⟩ := Assembler.assemble_eq_some hout
    exact wellScoped_layout ih a.arch a.origin

/-- In the tree of every preprocessed file, labels, declarations and references fit together, with or
without errors in the file. -/
theorem linked_parse (arch : Architecture) (r : Preprocessed)
    (himports : ∀ t ∈ r.output.imports, t.FromParse) : (Tree.parse arch r).Linked :=
  linked_link (wellScoped_ofPreprocessed arch r fun t ht => (himports t ht).wellScoped) arch

/-- A label and its sub-label are declared twice, and another sub-label follows the duplicates. -/
def duplicateSource : Text := "main: NOP\n.loop: NOP\nmain:\n.loop:\n.next: JMP .next\n.global main\n"

/-- The source with duplicates as a file with some imports. -/
def duplicateFile (imports : List Tree) : Preprocessed where
  file := "demo"
  output := { tokens := (Token.tokenize Mos6502.dialect "demo" duplicateSource).tokens, imports }

/-- The file imports itself, so that all of its labels have duplicates. -/
theorem linked_parse_duplicates :
    let imported := Tree.parse Mos6502.architecture (duplicateFile [])
    let t := Tree.parse Mos6502.architecture (duplicateFile [imported])
    imported.FromParse ∧ (t.errors.length = 5 ∧
      t.labels.live.map (fun x => (x.1, x.2.parent)) = [(0, none), (1, some 0), (4, some 0)]) ∧
      t.Linked := by
  have himported := FromParse.parse Mos6502.architecture (duplicateFile []) (by simp [duplicateFile])
  refine ⟨himported, by decide +kernel, linked_parse Mos6502.architecture _ fun t ht => ?_⟩
  rwa [List.mem_singleton.1 ht]

end Tree

end EightBit
