import Mathlib
import EightBit.Proofs.Encodable
import EightBit.Proofs.ImportSearch
import EightBit.Proofs.Scoping

/-!
# Imported statements keep their references

An imported tree was linked by itself before it is grafted, and linking the importing tree resolves every
name of the copy once more, now among the labels of all files. The copy still refers to itself: within the
copy, a name had a label; the copy of that label has the same name under the copy of the same parent; and
in a tree without errors no other label does. Only a full name might be the name of another label first,
so full names have to differ too.

* `LabelTable.CopiedAt`: a table holds the labels of another one from a place on.
* `LabelTable.CopiedAt.resolve?_eq`: a name in the copy refers to the copy of its label.
* `Node.IsBound`: the references of a statement are what its names are resolved to.
* `Tree.CopiedAt`: a tree holds the statements and labels of another one.
* `Tree.ImportedAt`: a tree was imported, directly or through other files.
* `Tree.copiedAt_of_importedAt`: imported trees are copied with their references.
-/

namespace EightBit

/-! ## Copies of labels -/

namespace LabelTable

variable {t t' u : LabelTable} {base : LabelId}

/-- A search for a live label by its identity is a search through the identities. -/
theorem find?_live (t : LabelTable) (p : Option LabelId × Text × Bool → Bool) :
    (t.live.find? fun x => p x.2.identity).map Prod.fst =
      ((t.labels.map Label.identity).zipIdx.find? fun x => !x.1.2.2 && p x.1).map Prod.snd := by
  simp only [live, List.find?_map, List.find?_filter, List.zipIdx_map, Option.map_map]
  refine congrArg₂ Option.map rfl ?_
  congr 1
  funext x
  simp [Label.identity]

theorem fullNameOf_congr (h : t'.labels.map Label.identity = t.labels.map Label.identity) (l : Label) :
    t'.fullNameOf l = t.fullNameOf l := by
  have hget : ∀ id, (t'.get? id).map Label.name = (t.get? id).map Label.name := by
    intro id
    have hidentity := congrArg (Option.map fun i => i.2.1) (identity?_congr h id)
    rwa [identity?, identity?, Option.map_map, Option.map_map] at hidentity
  simp only [fullNameOf, Option.map_bind, Function.comp_def, hget]

theorem nodup_fullNames_congr (h : t'.labels.map Label.identity = t.labels.map Label.identity)
    (hnames : (t'.live.map fun x => t'.fullNameOf x.2).Nodup) :
    (t.live.map fun x => t.fullNameOf x.2).Nodup := by
  -- Every live label of one table stands at the same place in the other one.
  have hsame : ∀ x ∈ t.live, ∃ l, (x.1, l) ∈ t'.live ∧ t'.fullNameOf l = t.fullNameOf x.2 := by
    intro x hx
    obtain ⟨l, hl, hparent, hname⟩ := exists_mem_live_of_identity h.symm hx
    exact ⟨l, hl, by rw [fullNameOf_congr h, fullNameOf, hparent, hname, fullNameOf]⟩
  refine (nodup_live t).map_on fun x hx y hy hname => ?_
  obtain ⟨l, hl, hlname⟩ := hsame x hx
  obtain ⟨k, hk, hkname⟩ := hsame y hy
  have hplace := List.inj_on_of_nodup_map hnames hl hk (by simp only [hlname, hkname, hname])
  exact eq_of_mem_live hx hy (Prod.mk.inj hplace).1

/-- What names are resolved to depends on the identities of labels only. -/
theorem resolve?_congr (h : t'.labels.map Label.identity = t.labels.map Label.identity) (d : Dialect)
    (scope : Option LabelId) (name : Text) : t'.resolve? d scope name = t.resolve? d scope name := by
  have hfind : ∀ p : Option LabelId × Text × Bool → Bool,
      (t'.live.find? fun x => p x.2.identity).map Prod.fst =
        (t.live.find? fun x => p x.2.identity).map Prod.fst := by
    intro p
    rw [find?_live, h, ← find?_live]
  have hlookup : ∀ parent, t'.lookup? parent name = t.lookup? parent name :=
    fun parent => hfind fun i => i.1 == parent && i.2.1 == name
  have hlookupFull : t'.lookupFull? name = t.lookupFull? name := by
    simp only [lookupFull?, fullNameOf_congr h]
    exact hfind fun i => ((i.1.bind t.get?).map Label.name).getD [] ++ i.2.1 == name
  simp only [resolve?, hlookup, hlookupFull]

/-- The table `u` holds the labels of `t` from place `base` on, and their parents among them. -/
def CopiedAt (base : LabelId) (t u : LabelTable) : Prop :=
  ∀ id < t.size, u.identity? (id + base) =
    (t.identity? id).map fun (parent, name, dropped) => (parent.map (· + base), name, dropped)

namespace CopiedAt

theorem exists_live (h : t.CopiedAt base u) {id : LabelId} {l : Label} (hl : (id, l) ∈ t.live) :
    ∃ k, (id + base, k) ∈ u.live ∧ k.parent = l.parent.map (· + base) ∧ k.name = l.name := by
  obtain ⟨hget, hdropped⟩ := mem_live.1 hl
  have hcopy := h id (List.getElem?_eq_some_iff.1 hget).1
  rw [identity?, identity?, hget, Option.map_some, Option.map_some, Option.map_eq_some_iff] at hcopy
  obtain ⟨k, hk, hidentity⟩ := hcopy
  simp only [Label.identity, Prod.mk.injEq] at hidentity
  obtain ⟨hparent, hname, hlive⟩ := hidentity
  exact ⟨k, mem_live.2 ⟨hk, hlive.trans hdropped⟩, hparent, hname⟩

/-- Copies have the same full names, since parents are copied too. -/
theorem exists_fullNameOf (h : t.CopiedAt base u) (ht : t.Keyed) {id : LabelId} {l : Label}
    (hl : (id, l) ∈ t.live) : ∃ k, (id + base, k) ∈ u.live ∧ u.fullNameOf k = t.fullNameOf l := by
  obtain ⟨k, hk, hparent, hname⟩ := h.exists_live hl
  refine ⟨k, hk, ?_⟩
  cases hp : l.parent with
  | none => simp [fullNameOf, hparent, hp, hname]
  | some p =>
    obtain ⟨parent, hlive, -⟩ := ht.parents _ hl p hp
    obtain ⟨parent', hlive', -, hname'⟩ := h.exists_live hlive
    simp [fullNameOf, hparent, hp, hname, (mem_live.1 hlive).1, (mem_live.1 hlive').1, hname']

/-- A name that had a label refers, in the copy, to the copy of this label. -/
theorem resolve?_eq (h : t.CopiedAt base u) (ht : t.Keyed) (hu : u.Keyed)
    (hnames : (u.live.map fun x => u.fullNameOf x.2).Nodup) {d : Dialect} {scope : Option LabelId}
    {name : Text} {id : LabelId} (hid : t.resolve? d scope name = some id) :
    u.resolve? d (scope.map (· + base)) name = some (id + base) := by
  -- Labels are found by their parents and names wherever they are unique.
  have hlookup : ∀ parent, t.lookup? parent name = some id →
      u.lookup? (parent.map (· + base)) name = some (id + base) := by
    intro parent hfound
    obtain ⟨l, hl, rfl, rfl⟩ := exists_of_lookup? hfound
    obtain ⟨k, hk, hparent, hname⟩ := h.exists_live hl
    rw [← hparent, ← hname]
    exact hu.lookup?_eq hk
  unfold resolve? at hid ⊢
  split_ifs at hid ⊢ with hsub
  · exact hlookup scope hid
  rcases Option.or_eq_some_iff.1 hid with hfound | ⟨-, hfound⟩
  · rw [show u.lookup? none name = some (id + base) from hlookup none hfound]
    rfl
  · obtain ⟨l, hl, hname⟩ := exists_of_lookupFull? hfound
    obtain ⟨k, hk, hfull⟩ := h.exists_fullNameOf ht hl
    rw [hname] at hfull
    have hunique : ∀ x ∈ u.live, u.fullNameOf x.2 = name → x.1 = id + base := by
      intro x hx hxname
      rw [List.inj_on_of_nodup_map hnames hx hk (hxname.trans hfull.symm)]
    -- A label of this name that is no sub-label has it as its full name, and would come first.
    cases htop : u.lookup? none name with
    | some other =>
      obtain ⟨m, hm, hparent, hmname⟩ := exists_of_lookup? htop
      exact congrArg some (hunique _ hm (by simp [fullNameOf, hparent, hmname]))
    | none =>
      rw [Option.none_or]
      cases hother : u.lookupFull? name with
      | none => exact absurd hfull (lookupFull?_eq_none_iff.1 hother _ hk)
      | some other =>
        obtain ⟨m, hm, hmname⟩ := exists_of_lookupFull? hother
        exact congrArg some (hunique _ hm hmname)

/-- Copies of copies are copies. -/
theorem trans {base' : LabelId} {v : LabelTable} (h : t.CopiedAt base u) (h' : u.CopiedAt base' v) :
    t.CopiedAt (base + base') v := by
  intro id hid
  have hcopy := h id hid
  have hlt : id + base < u.size := by
    obtain ⟨l, hl⟩ : ∃ l, t.get? id = some l := ⟨_, List.getElem?_eq_getElem hid⟩
    rw [identity?, identity?, hl, Option.map_some, Option.map_some, Option.map_eq_some_iff] at hcopy
    obtain ⟨k, hk, -⟩ := hcopy
    exact (List.getElem?_eq_some_iff.1 hk).1
  rw [← Nat.add_assoc, h' _ hlt, hcopy, Option.map_map]
  congr 1
  funext i
  simp [Option.map_map, Function.comp_def, Nat.add_assoc]

/-- The labels of a table depend on the identities only. -/
theorem congr {u' : LabelTable} (h : t.CopiedAt base u)
    (hu : u'.labels.map Label.identity = u.labels.map Label.identity) : t.CopiedAt base u' := by
  intro id hid
  rw [identity?_congr hu, h id hid]

end CopiedAt

end LabelTable

/-! ## Statements whose references are right -/

theorem Element.operands_mapLabels (f : LabelId → LabelId) (e : Element) :
    (e.mapLabels f).operands = e.operands.map fun op => { op with ref := op.ref.map f } := by
  cases e with
  | instruction mnemonic mode operand => cases operand <;> rfl
  | _ => rfl

theorem Element.mapLabels_mapLabels (f g : LabelId → LabelId) (e : Element) :
    (e.mapLabels f).mapLabels g = e.mapLabels (g ∘ f) := by
  cases e with
  | instruction mnemonic mode operand => cases operand <;> simp [mapLabels, mapOperands]
  | _ => simp [mapLabels, mapOperands]

theorem Node.renumber_renumber (f g : LabelId → LabelId) (n : Node) :
    (n.renumber f).renumber g = n.renumber (g ∘ f) := by
  simp only [renumber, Element.mapLabels_mapLabels, Option.map_map]

theorem Element.kind_mapLabels (f : LabelId → LabelId) (e : Element) : (e.mapLabels f).kind = e.kind := by
  cases e <;> rfl

/-- The references of a statement are what its names are resolved to in a table, and no name is without a
label. -/
structure Node.IsBound (d : Dialect) (labels : LabelTable) (n : Node) : Prop where
  /-- An export has its label. -/
  global : ∀ found name, n.element = .global found name →
    ∃ id, labels.resolve? d none name.token.text = some id ∧ found = some id ∧ name.ref = some id
  /-- Words refer to their labels, and nothing else refers to one. -/
  operands : n.kind ≠ .global → ∀ op ∈ n.element.operands,
    Link.bind d labels n.scope op = op ∧ (op.isWord → op.ref.isSome)

namespace Node.IsBound

variable {d : Dialect} {labels labels' : LabelTable} {n : Node}

theorem congr (h : n.IsBound d labels)
    (hsame : labels'.labels.map Label.identity = labels.labels.map Label.identity) : n.IsBound d labels' where
  global := by
    simp only [LabelTable.resolve?_congr hsame]
    exact h.global
  operands := by
    simp only [Link.bind, LabelTable.resolve?_congr hsame]
    exact h.operands

/-- Resolving such a statement once more leaves it as it is. -/
theorem resolve_eq {arch : Architecture} {s : Link.References} (h : n.IsBound arch.dialect s.labels) :
    (Link.resolve arch s n).2 = some n := by
  by_cases hkind : n.kind = .global
  · obtain ⟨found, name, helement⟩ : ∃ found name, n.element = .global found name := by
      cases helement : n.element <;> simp_all [Node.kind, Element.kind]
    obtain ⟨id, hresolve, rfl, href⟩ := h.global found name helement
    have hname : { name with ref := some id } = name := by rw [← href]
    unfold Link.resolve
    simp only [helement, hresolve, hname]
    rw [← helement]
  · rw [Link.resolve_of_not_global arch s hkind]
    simp only [Element.mapOperands_eq_self fun op hop => (h.operands hkind op hop).1]

/-- A copy of such a statement is one among the copies of the labels. -/
theorem renumber {t u : LabelTable} {base : LabelId} (h : n.IsBound d t) (hcopied : t.CopiedAt base u)
    (ht : t.Keyed) (hu : u.Keyed) (hnames : (u.live.map fun x => u.fullNameOf x.2).Nodup) :
    (n.renumber (· + base)).IsBound d u where
  global found name helement := by
    obtain ⟨tokens, element, scope, address⟩ := n
    cases element with
    | global found' name' =>
      obtain ⟨rfl, rfl⟩ := Element.global.inj helement
      obtain ⟨id, hresolve, rfl, href⟩ := h.global found' name' rfl
      have hcopy := hcopied.resolve?_eq ht hu hnames hresolve
      exact ⟨id + base, hcopy, rfl, by simp [href]⟩
    | _ => cases helement
  operands hkind op hop := by
    have hkind' : n.kind ≠ .global := by rwa [Node.kind, Node.renumber, Element.kind_mapLabels] at hkind
    rw [Node.renumber, Element.operands_mapLabels, List.mem_map] at hop
    obtain ⟨op, hop, rfl⟩ := hop
    obtain ⟨hbind, hsome⟩ := h.operands hkind' op hop
    have href := congrArg Operand.ref hbind
    rw [Link.bind] at href
    refine ⟨?_, fun hword => by simpa using hsome hword⟩
    cases hword : op.isWord with
    | false =>
      rw [hword, if_neg Bool.false_ne_true] at href
      simp [Link.bind, Operand.isWord, ← href, show (op.token.kind == .word) = false from hword]
    | true =>
      obtain ⟨id, hid⟩ := Option.isSome_iff_exists.1 (hsome hword)
      rw [hword, if_pos rfl, hid] at href
      have hcopy := hcopied.resolve?_eq ht hu hnames href
      simp [Link.bind, Operand.isWord, Node.renumber, hid, hcopy, show (op.token.kind == .word) = true from hword]

end Node.IsBound

namespace Link

variable {arch : Architecture}

/-- Statements whose references are right are kept as they are, whatever is exported on the way. -/
theorem rebuild_resolve_of_isBound {labels : LabelTable} {ns : List Node}
    (hbound : ∀ n ∈ ns, n.IsBound arch.dialect labels) {s : References}
    (hs : s.labels.labels.map Label.identity = labels.labels.map Label.identity) :
    (Section.rebuild.nodes (resolve arch) s ns).2 = ns := by
  induction ns generalizing s with
  | nil => rfl
  | cons n rest ih =>
    obtain ⟨hn, hrest⟩ := List.forall_mem_cons.1 hbound
    have hnext := (map_resolve Label.identity (fun _ => rfl) arch s n).trans hs
    rw [Section.rebuild_nodes_cons, (hn.congr hs).resolve_eq, ih hrest hnext]
    rfl

/-- Duplicates are reported as errors. -/
theorem isError_of_mem_dropDuplicate {s : Duplicates} {n : Node} {d : Diagnostic}
    (hd : d ∈ (dropDuplicate s n).1.diagnostics) : d ∈ s.diagnostics ∨ d.isError := by
  rcases dropDuplicate_cases s n with ⟨-, hsame⟩ | ⟨-, hmore⟩
  · exact .inl (hsame ▸ hd)
  · rw [hmore] at hd
    rcases List.mem_append.1 hd with hd | hd
    · exact .inl hd
    · rw [List.mem_singleton.1 hd]
      exact .inr rfl

end Link

namespace Tree

variable {arch : Architecture}

/-- Without errors, no duplicate was dropped. -/
theorem deduplicated_of_errors {t : Tree} (herrors : (t.link arch).errors = []) :
    t.deduplicated.2 = t.nodes ∧ t.deduplicated.1.labels = t.labels := by
  have hquiet : t.deduplicated.1.diagnostics = [] := by
    refine List.eq_nil_iff_forall_not_mem.2 fun d hd => ?_
    have herror : d.isError := by
      refine Section.rebuild_nodes_state (P := fun s : Link.Duplicates => ∀ d ∈ s.diagnostics, d.isError)
        (fun s n hs d hd => ?_) (by simp) t.nodes d hd
      exact (Link.isError_of_mem_dropDuplicate hd).elim (hs d) id
    have hmem : d ∈ (t.link arch).errors :=
      List.mem_filter.2 ⟨by rw [diagnostics_link]; simp [hd], herror⟩
    rw [herrors] at hmem
    exact List.not_mem_nil hmem
  exact Link.rebuild_dropDuplicate_of_quiet (s := { labels := t.labels }) rfl hquiet

/-- Resolving references changes what is exported, and no identity. -/
theorem identity_rebuild_resolve (arch : Architecture) (labels : LabelTable) (ns : List Node) :
    (Section.rebuild.nodes (Link.resolve arch) { labels } ns).1.labels.labels.map Label.identity =
      labels.labels.map Label.identity :=
  Section.rebuild_nodes_state
    (P := fun s : Link.References => s.labels.labels.map Label.identity = labels.labels.map Label.identity)
    (fun s n hs => (Link.map_resolve _ (fun _ => rfl) arch s n).trans hs) rfl ns

/-- The references of a tree that was linked without errors are right. -/
theorem isBound_link (hsymbolic : arch.symbolicData = false) {t : Tree}
    (herrors : (t.link arch).errors = []) :
    ∀ n ∈ (t.link arch).nodes, n.IsBound arch.dialect (t.link arch).labels := by
  intro k hk
  have hsome : ∀ op ∈ k.element.operands, op.isWord → op.ref.isSome :=
    fun op hop => isSome_ref_link hsymbolic herrors hk hop
  rw [nodes_link] at hk
  obtain ⟨before, n, after, -, hn⟩ := Section.exists_of_mem_rebuild_nodes hk
  -- The names were resolved in a table that differs in what is exported only.
  have hlabels := (identity_resolved arch (t := t)).trans
    (identity_rebuild_resolve arch t.deduplicated.1.labels before).symm
  have hresolve := LabelTable.resolve?_congr hlabels
  rcases Link.resolve_cases hn with ⟨found, name, id, helement, hid, rfl⟩ | ⟨hkind, rfl⟩
  · refine ⟨fun found' name' helement' => ?_, fun hkind => absurd rfl hkind⟩
    obtain ⟨rfl, rfl⟩ := Element.global.inj helement'
    exact ⟨id, (hresolve ..).trans hid, rfl, rfl⟩
  · refine ⟨fun found name helement => ?_, fun _ op hop => ⟨?_, hsome op hop⟩⟩
    · cases helement' : n.element <;> simp_all [Node.kind, Element.kind, Element.mapOperands]
    · -- An operand that was bound is bound to the same label again.
      rw [Element.operands_mapOperands, List.mem_map] at hop
      obtain ⟨op, -, rfl⟩ := hop
      show Link.bind arch.dialect _ n.scope op = Link.bind arch.dialect _ n.scope op
      rw [Link.bind, hresolve, Link.bind]

theorem nodes_foldl_graft (imports : List Tree) (t : Tree) :
    ∃ rest, (imports.foldl graft t).nodes = t.nodes ++ rest := by
  induction imports generalizing t with
  | nil => exact ⟨[], by simp⟩
  | cons other imports ih =>
    obtain ⟨rest, hrest⟩ := ih (t.graft other)
    rw [List.foldl_cons, hrest, nodes_graft, List.append_assoc]
    exact ⟨_, rfl⟩

theorem identity?_foldl_graft (imports : List Tree) {t : Tree} {id : LabelId} (hid : id < t.labels.size) :
    (imports.foldl graft t).labels.identity? id = t.labels.identity? id := by
  induction imports generalizing t with
  | nil => rfl
  | cons other imports ih =>
    rw [List.foldl_cons, ih (by rw [size_labels_graft]; exact Nat.lt_add_right _ hid),
      identity?_graft_of_lt hid]

/-! ## Copies of trees -/

/-- The tree `u` holds the statements of `t` one after the other, and the labels of `t` from place `base`
on. Whatever referred to a label refers to its copy, and so do scopes and parents. -/
structure CopiedAt (base : LabelId) (t u : Tree) : Prop where
  /-- The statements, with their labels moved and up to addresses. -/
  nodes : t.nodes.map (Node.renumber (· + base)) <:+: u.nodes.map Node.bare
  /-- The labels. -/
  labels : t.labels.CopiedAt base u.labels

theorem CopiedAt.trans {base base' : LabelId} {t u v : Tree} (h : t.CopiedAt base u)
    (h' : u.CopiedAt base' v) : t.CopiedAt (base + base') v := by
  refine ⟨?_, h.labels.trans h'.labels⟩
  have hmoved : ∀ n : Node,
      (n.renumber (· + base)).renumber (· + base') = n.renumber (· + (base + base')) := by
    intro n
    rw [Node.renumber_renumber]
    simp only [Function.comp_def, Nat.add_assoc]
  have hbare : ∀ n : Node, n.bare.renumber (· + base') = n.renumber (· + base') := fun _ => rfl
  have hinner := h.nodes.map (Node.renumber (· + base'))
  simp only [List.map_map, Function.comp_def, hmoved, hbare] at hinner
  exact hinner.trans h'.nodes

theorem CopiedAt.nodup_fullNames {base : LabelId} {t u : Tree} (h : t.CopiedAt base u) (ht : t.labels.Keyed)
    (hnames : (u.labels.live.map fun x => u.labels.fullNameOf x.2).Nodup) :
    (t.labels.live.map fun x => t.labels.fullNameOf x.2).Nodup := by
  refine (LabelTable.nodup_live _).map_on fun x hx y hy hname => ?_
  obtain ⟨k, hk, hkname⟩ := h.labels.exists_fullNameOf ht hx
  obtain ⟨m, hm, hmname⟩ := h.labels.exists_fullNameOf ht hy
  have hcopies := List.inj_on_of_nodup_map hnames hk hm (by simp only [hkname, hmname, hname])
  exact LabelTable.eq_of_mem_live hx hy (Nat.add_right_cancel (congrArg Prod.fst hcopies))

/-- A tree whose references are right is copied with them, if the importing tree has no errors and its
full names differ. -/
theorem copiedAt_parse {r : Preprocessed} {before after : List Tree} {t : Tree}
    (himports : r.output.imports = before ++ t :: after) (hparsed : ∀ o ∈ r.output.imports, o.FromParse)
    (hbound : ∀ n ∈ t.nodes, n.IsBound arch.dialect t.labels) (herrors : (Tree.parse arch r).errors = [])
    (hnames : ((Tree.parse arch r).labels.live.map fun x =>
      (Tree.parse arch r).labels.fullNameOf x.2).Nodup) :
    t.CopiedAt (before.foldl graft (own arch r)).labels.size (Tree.parse arch r) := by
  have hkeyed := (FromParse.parse arch r hparsed).keyed
  have ht := (hparsed t (by simp [himports])).keyed
  obtain ⟨hnodes, hlabels⟩ := deduplicated_of_errors herrors
  have hidentity := identity_resolved arch (t := ofPreprocessed arch r)
  rw [hlabels] at hidentity
  -- Before linking, the tree is the one with the earlier imports, the copy, and what comes later.
  have hgrafted : ofPreprocessed arch r =
      after.foldl graft ((before.foldl graft (own arch r)).graft t) := by
    rw [ofPreprocessed_eq, himports, List.foldl_append, List.foldl_cons]
  generalize hbase : before.foldl graft (own arch r) = earlier at hgrafted ⊢
  have hcopied : t.labels.CopiedAt earlier.labels.size (Tree.parse arch r).labels := by
    refine LabelTable.CopiedAt.congr (fun id hid => ?_) hidentity
    rw [hgrafted, identity?_foldl_graft, identity?_graft_add]
    rw [size_labels_graft, Nat.add_comm]
    exact Nat.add_lt_add_left hid _
  obtain ⟨rest, hrest⟩ := nodes_foldl_graft after (earlier.graft t)
  refine ⟨?_, hcopied⟩
  have hcopy : ∀ n ∈ t.nodes.map (Node.renumber (· + earlier.labels.size)),
      n.IsBound arch.dialect (Tree.parse arch r).labels := by
    intro n hn
    obtain ⟨k, hk, rfl⟩ := List.mem_map.1 hn
    exact (hbound k hk).renumber hcopied ht hkeyed hnames
  have hbare : ∀ n : Node, (n.renumber (· + earlier.labels.size)).bare = n.renumber (· + earlier.labels.size) :=
    fun _ => rfl
  -- Names are resolved from the first statement to the last, so the copy is reached in some state.
  rw [Tree.parse, nodes_link, resolved, hnodes, hlabels, hgrafted, hrest, nodes_graft,
    Section.rebuild_nodes_append, Section.rebuild_nodes_append,
    Link.rebuild_resolve_of_isBound hcopy ((identity_rebuild_resolve ..).trans ?_)]
  · simp only [List.map_append, List.map_map, Function.comp_def, hbare]
    exact ⟨_, _, rfl⟩
  · rw [← hgrafted]
    exact hidentity.symm

/-! ## Imported trees -/

/-- Trees obtained for a target from preprocessed files, by parsing and assembling; so are the imports,
which have no errors and were assembled. -/
inductive ParsedFor (arch : Architecture) : Tree → Prop
  | parse (r : Preprocessed) (himports : ∀ t ∈ r.output.imports, ParsedFor arch t)
    (hready : ∀ t ∈ r.output.imports, t.IsImportable) : ParsedFor arch (Tree.parse arch r)
  | assemble (a : Assembler) {t : Tree} (ht : ParsedFor arch t) (m : Memory) {out : Assembled}
    (hout : a.assemble t m = some out) : ParsedFor arch out.tree

/-- The tree `t` was imported into `u`, directly or through files that import it. Its labels were appended
to a table of length `base`, added up over the files in between. -/
inductive ImportedAt (arch : Architecture) (t : Tree) : LabelId → Tree → Prop
  | direct (r : Preprocessed) (hfrom : ∀ o ∈ r.output.imports, ParsedFor arch o ∧ o.IsImportable)
    {before after : List Tree} (himports : r.output.imports = before ++ t :: after) :
    ImportedAt arch t (before.foldl graft (own arch r)).labels.size (Tree.parse arch r)
  | through (r : Preprocessed) (hfrom : ∀ o ∈ r.output.imports, ParsedFor arch o ∧ o.IsImportable)
    {before after : List Tree} {base : LabelId} {m : Tree}
    (himports : r.output.imports = before ++ m :: after) (hm : ImportedAt arch t base m) :
    ImportedAt arch t (base + (before.foldl graft (own arch r)).labels.size) (Tree.parse arch r)
  | assemble (a : Assembler) {base : LabelId} {u : Tree} (hu : ImportedAt arch t base u) (m : Memory)
    {out : Assembled} (hout : a.assemble u m = some out) : ImportedAt arch t base out.tree

section ParsedFor

variable {t u : Tree} {base : LabelId}

theorem identity_layout (arch : Architecture) (origin : UInt64) (t : Tree) :
    (t.layout arch origin).1.labels.labels.map Label.identity = t.labels.labels.map Label.identity :=
  Layout.map_labels_run arch Label.identity (fun _ _ => rfl) origin t.labels t.nodes

theorem ParsedFor.fromParse (h : t.ParsedFor arch) : t.FromParse := by
  induction h with
  | parse r _ _ ih => exact .parse arch r ih
  | assemble a _ m hout ih => exact .assemble a ih m hout

/-- The layout changes addresses only. -/
theorem isBound_layout {d : Dialect} (h : ∀ n ∈ t.nodes, n.IsBound d t.labels) (arch : Architecture)
    (origin : UInt64) :
    ∀ n ∈ (t.layout arch origin).1.nodes, n.IsBound d (t.layout arch origin).1.labels := by
  intro n hn
  have hbare : n.bare ∈ t.nodes.map Node.bare := by
    rw [← bare_layout arch origin]
    exact List.mem_map_of_mem hn
  obtain ⟨k, hk, heq⟩ := List.mem_map.1 hbare
  have hk' : k.bare.IsBound d (t.layout arch origin).1.labels := by
    obtain ⟨hglobal, hoperands⟩ := (h k hk).congr (identity_layout arch origin t)
    exact ⟨hglobal, hoperands⟩
  rw [heq] at hk'
  exact ⟨hk'.global, hk'.operands⟩

theorem ParsedFor.isBound (hsymbolic : arch.symbolicData = false) (h : t.ParsedFor arch)
    (herrors : t.errors = []) : ∀ n ∈ t.nodes, n.IsBound arch.dialect t.labels := by
  induction h with
  | parse r _ _ _ => exact isBound_link hsymbolic herrors
  | assemble a _ m hout ih =>
    obtain ⟨hnone, rfl⟩ := Assembler.assemble_eq_some hout
    exact isBound_layout (ih hnone) a.arch a.origin

/-- A layout of the copy is a copy. -/
theorem CopiedAt.layout (h : t.CopiedAt base u) (arch : Architecture) (origin : UInt64) :
    t.CopiedAt base (u.layout arch origin).1 where
  nodes := by
    rw [bare_layout]
    exact h.nodes
  labels := h.labels.congr (identity_layout arch origin u)

theorem ImportedAt.copiedAt (hsymbolic : arch.symbolicData = false) (h : ImportedAt arch t base u)
    (herrors : u.errors = []) (hnames : (u.labels.live.map fun x => u.labels.fullNameOf x.2).Nodup) :
    t.CopiedAt base u := by
  induction h with
  | direct r hfrom himports =>
    have ht := hfrom t (by simp [himports])
    exact copiedAt_parse himports (fun o ho => (hfrom o ho).1.fromParse)
      (ht.1.isBound hsymbolic ht.2.errors) herrors hnames
  | @through r hfrom _ _ _ m himports _ ih =>
    have hm := hfrom m (by simp [himports])
    have hcopied := copiedAt_parse himports (fun o ho => (hfrom o ho).1.fromParse)
      (hm.1.isBound hsymbolic hm.2.errors) herrors hnames
    exact (ih hm.2.errors (hcopied.nodup_fullNames hm.1.fromParse.keyed hnames)).trans hcopied
  | @assemble a _ u _ m _ hout ih =>
    obtain ⟨hnone, rfl⟩ := Assembler.assemble_eq_some hout
    have hnames' := LabelTable.nodup_fullNames_congr (identity_layout a.arch a.origin u) hnames
    have hcopied := (ih hnone hnames').layout a.arch a.origin
    exact ⟨hcopied.nodes, hcopied.labels⟩

/-- What a source text imports was parsed for the same target, has no errors and was assembled. -/
theorem parsedFor_of_mem_imports {a : Assembler} (hfiles : ∀ file t, a.files file = some t → t.ParsedFor a.arch)
    (name text : Text) :
    ∀ t ∈ (a.preprocessed name text).output.imports, t.ParsedFor a.arch ∧ t.IsImportable := by
  intro t ht
  obtain ⟨file, -, hfile, himportable⟩ := Assembler.exists_of_mem_imports ht
  exact ⟨hfiles file t hfile, himportable⟩

theorem BuiltFor.parsedFor (h : t.BuiltFor arch) : t.ParsedFor arch := by
  induction h with
  | parse a ha _ name text ih =>
    subst ha
    have himports := parsedFor_of_mem_imports ih name text
    rw [Assembler.tree_eq_parse]
    exact .parse _ (fun t ht => (himports t ht).1) fun t ht => (himports t ht).2
  | assemble a _ _ m hout ih => exact .assemble a ih m hout

/-- Importing does not rebind: if the importing tree has no errors and no two of its live labels have the
same full name, a tree that it imports at any depth is copied with its references, scopes and parents.
The imported tree stays as it is, whatever else is looked up. -/
theorem copiedAt_of_importedAt (hsymbolic : arch.symbolicData = false) (h : ImportedAt arch t base u)
    (herrors : u.errors = []) (hnames : (u.labels.live.map fun x => u.labels.fullNameOf x.2).Nodup) :
    t.CopiedAt base u ∧
      ∀ disk a depth dir name s found log s',
        Build.resolve disk a depth dir name s = .ok (found, log, s') →
        ∀ path, s.lookup path = some (some t) → s'.lookup path = some (some t) :=
  ⟨h.copiedAt hsymbolic herrors hnames,
    fun _ _ _ _ _ _ _ _ _ hresolve path => Build.keeps_resolve hresolve path (some t)⟩

end ParsedFor

/-- A routine with a sub-label, which it refers to in both ways. -/
def deepSource : Text := "deep: JMP .x\n.x: RTS\n JMP deep.x\n.global deep\n"

/-- The tree of the routine, after it was assembled. -/
def deepTree : Tree :=
  (((Assembler.ofArchitecture Mos6502.architecture).parse "deep" deepSource).tree.assemble
    Mos6502.architecture 0x0200 false (.empty 16 none)).tree

/-- An assembler that finds the routine. -/
def deepImporter : Assembler :=
  { Assembler.ofArchitecture Mos6502.architecture with files := fun _ => some deepTree }

/-- A file that imports the routine and has a sub-label of the same name. -/
def middleSource : Text := "#import \"deep\"\nmiddle: JSR deep\n.x: JMP .x\n"

def middleTree : Tree :=
  ((deepImporter.parse "middle" middleSource).tree.assemble
    Mos6502.architecture 0x0200 false (.empty 16 none)).tree

def middleImporter : Assembler :=
  { Assembler.ofArchitecture Mos6502.architecture with files := fun _ => some middleTree }

/-- A file that imports the routine through another one. -/
def outerSource : Text := "#import \"middle\"\nouter: JSR middle\n.x: JMP deep.x\n"

theorem copiedAt_of_importedAt_nested :
    let u := (middleImporter.parse "outer" outerSource).tree
    ImportedAt Mos6502.architecture deepTree (2 + 2) u ∧ u.errors = [] ∧
      (u.labels.live.map fun x => u.labels.fullNameOf x.2).Nodup ∧ deepTree.CopiedAt (2 + 2) u := by
  intro u
  have hcheck :
      ((Assembler.ofArchitecture Mos6502.architecture).parse "deep" deepSource).tree.errors.isEmpty ∧
      (deepImporter.parse "middle" middleSource).tree.errors.isEmpty ∧
      (deepImporter.preprocessed "middle" middleSource).output.imports = [] ++ deepTree :: [] ∧
      (middleImporter.preprocessed "outer" outerSource).output.imports = [] ++ middleTree :: [] ∧
      (own Mos6502.architecture (deepImporter.preprocessed "middle" middleSource)).labels.size = 2 ∧
      (own Mos6502.architecture (middleImporter.preprocessed "outer" outerSource)).labels.size = 2 ∧
      u.errors = [] ∧ (u.labels.live.map fun x => u.labels.fullNameOf x.2).Nodup := by
    decide +kernel
  obtain ⟨hdeep, hmiddle, himportsMiddle, himportsOuter, hsizeMiddle, hsizeOuter, herrors, hnames⟩ := hcheck
  have hdeepFor : deepTree.ParsedFor Mos6502.architecture :=
    (BuiltFor.assemble (Assembler.ofArchitecture Mos6502.architecture) rfl
      (.parse (Assembler.ofArchitecture Mos6502.architecture) rfl (fun _ _ h => nomatch h) "deep" deepSource) _
      (if_pos hdeep)).parsedFor
  have hfromMiddle := parsedFor_of_mem_imports (a := deepImporter)
    (fun _ _ h => Option.some.inj h ▸ hdeepFor) "middle" middleSource
  have hmiddleAt : ImportedAt Mos6502.architecture deepTree 2 middleTree := by
    refine .assemble deepImporter (u := (deepImporter.parse "middle" middleSource).tree) ?_ _ (if_pos hmiddle)
    have hdirect := ImportedAt.direct _ hfromMiddle himportsMiddle
    rw [List.foldl_nil, show deepImporter.arch = Mos6502.architecture from rfl, hsizeMiddle] at hdirect
    rw [Assembler.tree_eq_parse]
    exact hdirect
  have hmiddleFor : middleTree.ParsedFor Mos6502.architecture := by
    refine .assemble deepImporter (t := (deepImporter.parse "middle" middleSource).tree) ?_ _ (if_pos hmiddle)
    rw [Assembler.tree_eq_parse]
    exact .parse _ (fun t ht => (hfromMiddle t ht).1) fun t ht => (hfromMiddle t ht).2
  have hfromOuter := parsedFor_of_mem_imports (a := middleImporter)
    (fun _ _ h => Option.some.inj h ▸ hmiddleFor) "outer" outerSource
  have houter : ImportedAt Mos6502.architecture deepTree (2 + 2) u := by
    have htree : u = _ := Assembler.tree_eq_parse ..
    have hthrough := ImportedAt.through _ hfromOuter himportsOuter hmiddleAt
    rw [List.foldl_nil, show middleImporter.arch = Mos6502.architecture from rfl, hsizeOuter] at hthrough
    rw [htree]
    exact hthrough
  exact ⟨houter, herrors, hnames, (copiedAt_of_importedAt rfl houter herrors hnames).1⟩

end Tree

end EightBit
