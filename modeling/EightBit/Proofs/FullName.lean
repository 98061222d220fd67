import Mathlib
import EightBit.Proofs.Linking

/-!
# Full names

The full name of a sub-label is the name of its parent followed by its own, and nothing marks where one
ends and the other starts. So two labels may share a full name: beside `f` with a sub-label `.b` there
may be a label `f.b`. This is the only way: the name of a label that is no sub-label then continues that
of the other parent with the beginning of a sub-label's name.

* `LabelTable.stemOf`: the name of a label that a full name starts with.
* `LabelTable.Splits`: a full name that may be read in a second way.
* `LabelTable.Keyed`: what is known of the labels of a linked tree.
* `Tree.fullName_split_or_unique`: labels with the same full name, and when there are none.
* `Tree.parse_ambiguous`: a tree with two labels of the same full name.
-/

namespace EightBit

namespace LabelTable

variable {t t' : LabelTable}

/-! ## Searches -/

/-- Live labels stand in the order of their places. -/
theorem pairwise_live (t : LabelTable) : t.live.Pairwise fun x y => x.1 < y.1 := by
  have hzip : t.labels.zipIdx.Pairwise fun x y => x.2 < y.2 := by
    refine List.pairwise_map.1 ?_
    rw [List.zipIdx_map_snd]
    exact List.pairwise_lt_range'
  exact List.pairwise_map.2 (hzip.filter _)

section Search

variable {parent : Option LabelId} {name : Text} {id : LabelId}

theorem exists_of_lookup? (h : t.lookup? parent name = some id) :
    ∃ l, (id, l) ∈ t.live ∧ l.parent = parent ∧ l.name = name := by
  obtain ⟨⟨found, l⟩, hfound, rfl⟩ := Option.map_eq_some_iff.1 h
  have hkey := List.find?_some hfound
  simp only [Bool.and_eq_true, beq_iff_eq] at hkey
  exact ⟨l, List.mem_of_find?_eq_some hfound, hkey⟩

theorem lookup?_eq_none_iff :
    t.lookup? parent name = none ↔ ∀ x ∈ t.live, x.2.parent = parent → x.2.name ≠ name := by
  simp [lookup?, List.find?_eq_none]

theorem exists_of_lookupFull? (h : t.lookupFull? name = some id) :
    ∃ l, (id, l) ∈ t.live ∧ t.fullNameOf l = name := by
  obtain ⟨⟨found, l⟩, hfound, rfl⟩ := Option.map_eq_some_iff.1 h
  exact ⟨l, List.mem_of_find?_eq_some hfound, by simpa using List.find?_some hfound⟩

/-- Of several labels with a full name the first is found. -/
theorem le_of_lookupFull? (h : t.lookupFull? name = some id) {x : LabelId × Label} (hx : x ∈ t.live)
    (hname : t.fullNameOf x.2 = name) : id ≤ x.1 := by
  obtain ⟨y, hy, rfl⟩ := Option.map_eq_some_iff.1 h
  obtain ⟨-, before, after, hlive, hbefore⟩ := List.find?_eq_some_iff_append.1 hy
  have hsorted := pairwise_live t
  rw [hlive] at hx hsorted
  rcases List.mem_append.1 hx with hx | hx
  · exact absurd hname (by simpa using hbefore x hx)
  · rcases List.mem_cons.1 hx with rfl | hx
    · exact le_rfl
    · exact ((List.pairwise_cons.1 (List.pairwise_append.1 hsorted).2.1).1 x hx).le

theorem lookupFull?_eq_none_iff :
    t.lookupFull? name = none ↔ ∀ x ∈ t.live, t.fullNameOf x.2 ≠ name := by
  simp [lookupFull?, List.find?_eq_none]

end Search

/-! ## Splitting full names -/

/-- The name that the full name of a label starts with: that of its parent, or its own if it is no
sub-label. -/
def stemOf (t : LabelTable) (l : Label) : Text := ((l.parent.bind t.get?).map Label.name).getD l.name

/-- What the full name of a label has after its stem. -/
def tailOf (l : Label) : Text := if l.parent.isSome then l.name else []

/-- The stem of `other` is the name of the parent of `l`, continued with the first letters of the name of
`l`. -/
def Splits (t : LabelTable) (l other : Label) : Prop :=
  ∃ parent ∈ l.parent.bind t.get?, ∃ n < l.name.length,
    t.stemOf other = parent.name ++ l.name.take (n + 1)

instance (t : LabelTable) (l other : Label) : Decidable (t.Splits l other) :=
  inferInstanceAs (Decidable (∃ parent ∈ l.parent.bind t.get?, ∃ n < l.name.length,
    t.stemOf other = parent.name ++ l.name.take (n + 1)))

/-- Live labels differ in their parents or names; parents are live labels that are no sub-labels; and
sub-labels have names. -/
structure Keyed (t : LabelTable) : Prop where
  unique : ∀ x ∈ t.live, ∀ y ∈ t.live, x.2.parent = y.2.parent → x.2.name = y.2.name → x.1 = y.1
  parents : ∀ x ∈ t.live, ∀ p ∈ x.2.parent, ∃ l, (p, l) ∈ t.live ∧ l.parent = none
  named : ∀ x ∈ t.live, x.2.parent.isSome → x.2.name ≠ []

/-- Tables whose labels have the same identities have the same live labels up to the rest. -/
theorem exists_mem_live_of_identity (h : t'.labels.map Label.identity = t.labels.map Label.identity)
    {x : LabelId × Label} (hx : x ∈ t'.live) :
    ∃ l, (x.1, l) ∈ t.live ∧ l.parent = x.2.parent ∧ l.name = x.2.name := by
  obtain ⟨id, k⟩ := x
  obtain ⟨hget, hdropped⟩ := mem_live.1 hx
  have hidentity := identity?_congr h id
  rw [identity?, identity?, hget, Option.map_some, eq_comm, Option.map_eq_some_iff] at hidentity
  obtain ⟨l, hl, heq⟩ := hidentity
  obtain ⟨hparent, hname, hlive⟩ : l.parent = k.parent ∧ l.name = k.name ∧ l.dropped = k.dropped := by
    simpa [Label.identity] using heq
  exact ⟨l, mem_live.2 ⟨hl, hlive.trans hdropped⟩, hparent, hname⟩

/-- Addresses and exports do not count. -/
theorem Keyed.congr (h : t.Keyed) (hsame : t'.labels.map Label.identity = t.labels.map Label.identity) :
    t'.Keyed := by
  refine ⟨fun x hx y hy hparent hname => ?_, fun x hx p hp => ?_, fun x hx hsub => ?_⟩
  · obtain ⟨l, hl, hlp, hln⟩ := exists_mem_live_of_identity hsame hx
    obtain ⟨k, hk, hkp, hkn⟩ := exists_mem_live_of_identity hsame hy
    exact h.unique (x.1, l) hl (y.1, k) hk (by rw [hlp, hkp, hparent]) (by rw [hln, hkn, hname])
  · obtain ⟨l, hl, hlp, -⟩ := exists_mem_live_of_identity hsame hx
    obtain ⟨parent, hmem, htop⟩ := h.parents _ hl p (by rwa [hlp])
    obtain ⟨k, hk, hkp, -⟩ := exists_mem_live_of_identity hsame.symm hmem
    exact ⟨k, hk, hkp.trans htop⟩
  · obtain ⟨l, hl, hlp, hln⟩ := exists_mem_live_of_identity hsame hx
    rw [← hln]
    exact h.named _ hl (by rwa [hlp])

theorem nodup_live (t : LabelTable) : t.live.Nodup :=
  (pairwise_live t).imp fun hlt heq => absurd (congrArg Prod.fst heq) hlt.ne

theorem eq_of_mem_live {x y : LabelId × Label} (hx : x ∈ t.live) (hy : y ∈ t.live) (h : x.1 = y.1) :
    x = y := by
  have hget := (mem_live.1 hx).1
  rw [h, (mem_live.1 hy).1] at hget
  exact Prod.ext h (Option.some.inj hget).symm

namespace Keyed

variable (h : t.Keyed)
include h

/-- The full name of a sub-label is split after the name of its parent, which is a live label and no
sub-label. -/
theorem exists_parent {x : LabelId × Label} (hx : x ∈ t.live) {p : LabelId} (hp : x.2.parent = some p) :
    ∃ parent, (p, parent) ∈ t.live ∧ parent.parent = none ∧ t.get? p = some parent ∧
      t.stemOf x.2 = parent.name := by
  obtain ⟨parent, hparent, htop⟩ := h.parents x hx p hp
  have hget := (mem_live.1 hparent).1
  exact ⟨parent, hparent, htop, hget, by simp [stemOf, hp, hget]⟩

theorem fullNameOf_eq {x : LabelId × Label} (hx : x ∈ t.live) :
    t.fullNameOf x.2 = t.stemOf x.2 ++ tailOf x.2 := by
  cases hp : x.2.parent with
  | none => simp [fullNameOf, stemOf, tailOf, hp]
  | some p =>
    obtain ⟨parent, -, -, hget, -⟩ := h.exists_parent hx hp
    simp [fullNameOf, stemOf, tailOf, hp, hget]

/-- Labels whose full names have the same stem and the same tail are the same. -/
theorem eq_of_stem_tail {x y : LabelId × Label} (hx : x ∈ t.live) (hy : y ∈ t.live)
    (hstem : t.stemOf x.2 = t.stemOf y.2) (htail : tailOf x.2 = tailOf y.2) : x.1 = y.1 := by
  -- Only sub-labels have a tail, since they have names.
  have hsub : ∀ z ∈ t.live, tailOf z.2 = [] ↔ z.2.parent = none := by
    intro z hz
    have hnamed := h.named z hz
    cases hp : z.2.parent <;> simp_all [tailOf]
  cases hxp : x.2.parent with
  | none =>
    have hyp : y.2.parent = none := by rw [← hsub y hy, ← htail, hsub x hx, hxp]
    refine h.unique x hx y hy (hxp.trans hyp.symm) ?_
    simpa [stemOf, hxp, hyp] using hstem
  | some p =>
    cases hyp : y.2.parent with
    | none =>
      rw [(hsub y hy).2 hyp, hsub x hx, hxp] at htail
      cases htail
    | some q =>
      obtain ⟨P, hP, hPtop, -, hPname⟩ := h.exists_parent hx hxp
      obtain ⟨Q, hQ, hQtop, -, hQname⟩ := h.exists_parent hy hyp
      have hpq : p = q :=
        h.unique (p, P) hP (q, Q) hQ (hPtop.trans hQtop.symm) (by rw [← hPname, hstem, hQname])
      refine h.unique x hx y hy (by rw [hxp, hyp, hpq]) ?_
      simpa [tailOf, hxp, hyp] using htail

/-- A full name that continues after the stem of `x` as far as the stem of `y` is split within the tail
of `x`. -/
theorem splits_of_stem {x y : LabelId × Label} (hx : x ∈ t.live) {middle : Text} (hne : middle ≠ [])
    (hstem : t.stemOf y.2 = t.stemOf x.2 ++ middle) (htail : tailOf x.2 = middle ++ tailOf y.2) :
    t.Splits x.2 y.2 := by
  cases hp : x.2.parent with
  | none => simp [tailOf, hp, hne] at htail
  | some p =>
    obtain ⟨parent, -, -, hget, hname⟩ := h.exists_parent hx hp
    have hlen := List.length_pos_of_ne_nil hne
    have hbegin : x.2.name = middle ++ tailOf y.2 := by simpa [tailOf, hp] using htail
    refine ⟨parent, by simp [hp, hget], middle.length - 1, ?_, ?_⟩
    · rw [hbegin, List.length_append]
      omega
    · rw [hstem, hname, hbegin, Nat.sub_add_cancel hlen, List.take_left]

/-- Two labels with the same full name are the same, or the full name of one is split within the tail of
the other. -/
theorem eq_or_splits {x y : LabelId × Label} (hx : x ∈ t.live) (hy : y ∈ t.live)
    (heq : t.fullNameOf x.2 = t.fullNameOf y.2) :
    x.1 = y.1 ∨ t.Splits x.2 y.2 ∨ t.Splits y.2 x.2 := by
  rw [h.fullNameOf_eq hx, h.fullNameOf_eq hy] at heq
  -- Where one text is split twice, one of the stems continues the other up to a piece of its tail.
  rcases List.append_eq_append_iff.1 heq with ⟨middle, hstem, htail⟩ | ⟨middle, hstem, htail⟩
  · by_cases hmiddle : middle = []
    · subst hmiddle
      exact .inl (h.eq_of_stem_tail hx hy (by simpa using hstem.symm) (by simpa using htail))
    · exact .inr (.inl (h.splits_of_stem hx hmiddle hstem htail))
  · by_cases hmiddle : middle = []
    · subst hmiddle
      exact .inl (h.eq_of_stem_tail hx hy (by simpa using hstem) (by simpa using htail.symm))
    · exact .inr (.inr (h.splits_of_stem hy hmiddle hstem htail))

section Unsplit

variable (hunsplit : ∀ x ∈ t.live, ∀ y ∈ t.live, ¬ t.Splits x.2 y.2)
include hunsplit

theorem eq_of_fullNameOf {x y : LabelId × Label} (hx : x ∈ t.live) (hy : y ∈ t.live)
    (heq : t.fullNameOf x.2 = t.fullNameOf y.2) : x.1 = y.1 := by
  rcases h.eq_or_splits hx hy heq with hsame | hsplit | hsplit
  · exact hsame
  · exact absurd hsplit (hunsplit x hx y hy)
  · exact absurd hsplit (hunsplit y hy x hx)

/-- No two live labels have the same full name. -/
theorem nodup_fullNames : (t.live.map fun x => t.fullNameOf x.2).Nodup :=
  (nodup_live t).map_on fun _ hx _ hy heq =>
    eq_of_mem_live hx hy (h.eq_of_fullNameOf hunsplit hx hy heq)

/-- No full name is shown twice at an address. -/
theorem nodup_namesAt (addr : UInt64) : (t.namesAt addr).Nodup :=
  (h.nodup_fullNames hunsplit).sublist (List.filter_sublist.map _)

/-- A full name refers to its label wherever it is used, unless it reads as the name of a sub-label. -/
theorem resolve?_fullNameOf {d : Dialect} (scope : Option LabelId) {x : LabelId × Label} (hx : x ∈ t.live)
    (hname : d.isSubLabel (t.fullNameOf x.2) = false) :
    t.resolve? d scope (t.fullNameOf x.2) = some x.1 := by
  have hsame : ∀ {id : LabelId} {l : Label}, (id, l) ∈ t.live → t.fullNameOf l = t.fullNameOf x.2 →
      some id = some x.1 := fun hl heq => congrArg some (h.eq_of_fullNameOf hunsplit hl hx heq)
  rw [resolve?, hname, if_neg Bool.false_ne_true]
  cases htop : t.lookup? none (t.fullNameOf x.2) with
  | some id =>
    obtain ⟨l, hl, hparent, hown⟩ := exists_of_lookup? htop
    exact hsame hl (by simp [fullNameOf, hparent, hown])
  | none =>
    -- No label has the full name as its own, so that full names are searched, with success.
    cases hfull : t.lookupFull? (t.fullNameOf x.2) with
    | some id =>
      obtain ⟨l, hl, heq⟩ := exists_of_lookupFull? hfull
      exact hsame hl heq
    | none => exact absurd rfl (lookupFull?_eq_none_iff.1 hfull x hx)

end Unsplit

end Keyed

end LabelTable

/-! ## Names of sub-labels -/

/-- Every sub-label of a table has a name. -/
def LabelTable.SubNamed (t : LabelTable) : Prop := ∀ l ∈ t.labels, l.parent.isSome → l.name ≠ []

namespace LabelTable

variable {t : LabelTable}

theorem SubNamed.add (h : t.SubNamed) {l : Label} (hl : l.parent.isSome → l.name ≠ []) :
    (t.add l).SubNamed := by
  intro k hk
  rcases List.mem_append.1 hk with hk | hk
  · exact h k hk
  · rwa [List.mem_singleton.1 hk]

/-- A label may be changed if it is no sub-label afterwards that was none, and keeps its name. -/
theorem SubNamed.modify (h : t.SubNamed) {id : LabelId} {f : Label → Label}
    (hf : ∀ l, t.get? id = some l → (f l).name = l.name ∧ ((f l).parent.isSome → l.parent.isSome)) :
    (t.modify id f).SubNamed := by
  intro k hk hsub
  obtain ⟨n, hn⟩ := List.getElem?_of_mem hk
  have hget := t.get?_modify id n f
  rw [get?, hn] at hget
  split_ifs at hget with hid
  · obtain ⟨l, hl, rfl⟩ := Option.map_eq_some_iff.1 hget.symm
    obtain ⟨hname, hparent⟩ := hf l (hid ▸ hl)
    rw [hname]
    exact h l (List.mem_of_getElem? hl) (hparent hsub)
  · exact h k (List.mem_of_getElem? hget.symm) hsub

theorem SubNamed.congr {t' : LabelTable} (h : t.SubNamed)
    (hsame : t'.labels.map Label.identity = t.labels.map Label.identity) : t'.SubNamed := by
  intro k hk hsub
  have hmem : k.identity ∈ t'.labels.map Label.identity := List.mem_map_of_mem hk
  rw [hsame] at hmem
  obtain ⟨l, hl, heq⟩ := List.mem_map.1 hmem
  obtain ⟨hparent, hname, -⟩ : l.parent = k.parent ∧ l.name = k.name ∧ l.dropped = k.dropped := by
    simpa [Label.identity] using heq
  rw [← hname]
  exact h l hl (hparent ▸ hsub)

end LabelTable

theorem Dialect.ne_nil_of_isSubLabel {d : Dialect} {name : Text} (h : d.isSubLabel name) : name ≠ [] := by
  rintro rfl
  simp [isSubLabel] at h

namespace Parse

variable {s : Parse}

theorem subNamed_step {arch : Architecture} {s' : Parse} (h : s.labels.SubNamed) (hs : Step arch s s') :
    s'.labels.SubNamed := by
  have hreport : ∀ d, (s.report d).labels.SubNamed := by
    intro d
    obtain ⟨errors, heq⟩ := exists_report_eq s d
    rwa [heq]
  cases hs with
  | orphan | refused => exact hreport _
  | subLabel hsub => exact h.add fun _ => Dialect.ne_nil_of_isSubLabel hsub
  | topLabel => exact h.add (by simp)
  | statement => exact h

theorem subNamed_lines (h : s.labels.SubNamed) (arch : Architecture) (ls : List Line) :
    (Parse.lines arch s ls).labels.SubNamed :=
  lines_induction (P := fun s => s.labels.SubNamed) subNamed_step h ls

end Parse

namespace Assembler

theorem tree_eq_parse (a : Assembler) (name text : Text) :
    (a.parse name text).tree = Tree.parse a.arch (a.preprocessed name text) := by
  rw [tree_parse, Tree.parse]

/-- Without files there is nothing to import. -/
theorem imports_preprocessed {a : Assembler} (h : ∀ file, a.files file = none) (name text : Text) :
    (a.preprocessed name text).output.imports = [] := by
  refine List.eq_nil_iff_forall_not_mem.2 fun t ht => ?_
  obtain ⟨file, hfile⟩ := mem_imports_preprocessed ht
  rw [h] at hfile
  cases hfile

end Assembler

namespace Tree

theorem subNamed_graft {t other : Tree} (h : t.labels.SubNamed) (hother : other.labels.SubNamed) :
    (t.graft other).labels.SubNamed := by
  intro l hl hsub
  rcases List.mem_append.1 hl with hl | hl
  · exact h l hl hsub
  · obtain ⟨k, hk, rfl⟩ := List.mem_map.1 hl
    exact hother k hk (by simpa using hsub)

theorem subNamed_dropDuplicate {s : Link.Duplicates} (h : s.labels.SubNamed) (n : Node) :
    (Link.dropDuplicate s n).1.labels.SubNamed := by
  cases hid : n.declared? with
  | none =>
    rw [Link.dropDuplicate_of_not_label s hid]
    exact h
  | some id =>
    cases hl : s.labels.get? id with
    | none =>
      rw [Link.dropDuplicate_of_unknown s hid hl]
      exact h
    | some l =>
      have hmoved : (s.labels.modify id fun k => { k with parent := l.parent.map s.target }).SubNamed := by
        refine h.modify fun k hk => ⟨rfl, ?_⟩
        obtain rfl : l = k := Option.some.inj (hl.symm.trans hk)
        simp
      rw [Link.dropDuplicate_of_label s hid hl]
      simp only
      split
      · exact hmoved.modify fun k _ => ⟨rfl, fun hsub => hsub⟩
      · exact hmoved

theorem subNamed_link {t : Tree} (h : t.labels.SubNamed) (arch : Architecture) :
    (t.link arch).labels.SubNamed := by
  have hdup : t.deduplicated.1.labels.SubNamed :=
    Section.rebuild_nodes_state (P := fun s : Link.Duplicates => s.labels.SubNamed)
      (fun s n hs => subNamed_dropDuplicate hs n) h t.nodes
  exact hdup.congr (identity_resolved arch)

theorem FromParse.subNamed {t : Tree} (h : t.FromParse) : t.labels.SubNamed := by
  induction h with
  | parse arch r _ ih =>
    refine subNamed_link ?_ arch
    rw [ofPreprocessed_eq]
    refine List.foldlRecOn (motive := fun t : Tree => t.labels.SubNamed) _ _ ?_
      fun t h other hother => subNamed_graft h (ih other hother)
    exact Parse.subNamed_lines (s := {}) (by simp [LabelTable.SubNamed]) arch _
  | assemble a _ m hout ih =>
    obtain ⟨-, rfl⟩ := Assembler.assemble_eq_some hout
    exact ih.congr (Layout.map_labels_run a.arch _ (fun _ _ => rfl) a.origin _ _)

theorem FromParse.keyed {t : Tree} (h : t.FromParse) : t.labels.Keyed := by
  induction h with
  | parse arch r himports _ =>
    have hlinked := linked_link (wellScoped_ofPreprocessed arch r fun t ht => (himports t ht).wellScoped) arch
    refine ⟨hlinked.unique, hlinked.parents, fun x hx => ?_⟩
    exact (FromParse.parse arch r himports).subNamed x.2 (List.mem_of_getElem? (LabelTable.mem_live.1 hx).1)
  | assemble a _ m hout ih =>
    obtain ⟨-, rfl⟩ := Assembler.assemble_eq_some hout
    exact ih.congr (Layout.map_labels_run a.arch _ (fun _ _ => rfl) a.origin _ _)

/-- In every tree that was parsed, and assembled or not, two labels share a full name only if one of the
names that full names start with continues another one with the beginning of a sub-label's name. Where
this is not so, full names differ, none is shown twice at an address, and each refers to its label. -/
theorem fullName_split_or_unique {t : Tree} (h : t.FromParse) :
    (∀ x ∈ t.labels.live, ∀ y ∈ t.labels.live, t.labels.fullNameOf x.2 = t.labels.fullNameOf y.2 →
      x.1 = y.1 ∨ t.labels.Splits x.2 y.2 ∨ t.labels.Splits y.2 x.2) ∧
    ((∀ x ∈ t.labels.live, ∀ y ∈ t.labels.live, ¬ t.labels.Splits x.2 y.2) →
      (t.labels.live.map fun x => t.labels.fullNameOf x.2).Nodup ∧
      (∀ addr, (t.labels.namesAt addr).Nodup) ∧
      ∀ d scope, ∀ x ∈ t.labels.live, Dialect.isSubLabel d (t.labels.fullNameOf x.2) = false →
        t.labels.resolve? d scope (t.labels.fullNameOf x.2) = some x.1) := by
  have hkeyed := h.keyed
  refine ⟨fun x hx y hy => hkeyed.eq_or_splits hx hy, fun hunsplit => ⟨?_, ?_, ?_⟩⟩
  · exact hkeyed.nodup_fullNames hunsplit
  · exact hkeyed.nodup_namesAt hunsplit
  · exact fun d scope x hx => hkeyed.resolve?_fullNameOf hunsplit scope hx

/-- Sub-labels of the same name under two labels, one of whose names starts with the other. -/
def nestedSource : Text := "f:\n.b: NOP\nfb:\n.b: JMP f.b\n JMP fb.b\n"

theorem fullName_split_or_unique_nested :
    let t := ((Assembler.ofArchitecture Mos6502.architecture).parse "nested" nestedSource).tree
    t.FromParse ∧ t.errors = [] ∧
      (t.labels.live.map fun x => t.labels.fullNameOf x.2) = (["f", "f.b", "fb", "fb.b"] : List Text) ∧
      ∀ d scope, ∀ x ∈ t.labels.live, Dialect.isSubLabel d (t.labels.fullNameOf x.2) = false →
        t.labels.resolve? d scope (t.labels.fullNameOf x.2) = some x.1 := by
  intro t
  have hfrom : t.FromParse := by
    have himports := Assembler.imports_preprocessed (a := .ofArchitecture Mos6502.architecture) (fun _ => rfl)
      "nested" nestedSource
    have htree : t = _ := Assembler.tree_eq_parse ..
    rw [htree]
    exact FromParse.parse _ _ (by simp [himports])
  have hcheck : t.errors = [] ∧
      (t.labels.live.map fun x => t.labels.fullNameOf x.2) = (["f", "f.b", "fb", "fb.b"] : List Text) ∧
      ∀ x ∈ t.labels.live, ∀ y ∈ t.labels.live, ¬ t.labels.Splits x.2 y.2 := by
    decide +kernel
  obtain ⟨herrors, hnames, hunsplit⟩ := hcheck
  exact ⟨hfrom, herrors, hnames, ((fullName_split_or_unique hfrom).2 hunsplit).2.2⟩

/-- A label whose name is that of a label and its sub-label. -/
def ambiguousSource : Text := "f:\n.b: NOP\nf.b: NOP\n JMP f.b\n"

/-- Two labels have the same full name in a tree without errors, and a reference by it goes to the one that
is no sub-label. -/
theorem parse_ambiguous :
    let t := ((Assembler.ofArchitecture Mos6502.architecture).parse "names" ambiguousSource).tree
    t.diagnostics = [] ∧
      (t.labels.live.map fun x => (x.1, t.labels.fullNameOf x.2)) =
        ([(0, "f"), (1, "f.b"), (2, "f.b")] : List (LabelId × Text)) ∧
      t.nodes.flatMap (fun n => n.element.operands.map Operand.ref) = [some 2] := by
  decide +kernel

end Tree

end EightBit
