import Mathlib
import EightBit.Proofs.ErrorLimit
import EightBit.Proofs.FullName

/-!
# The scoping of labels

What a name in a source refers to is a matter of where it stands: a source is a list of labels and
statements, the name of a sub-label is looked up under the nearest label in front of it that is no
sub-label itself, and any other name in the whole source. The parser keeps only the last label that is no
sub-label, and the linker searches a table of labels; both agree with the places in the source.

* `Source`: the labels and statements of a file, in order; `Source.scope?` is the nearest label in front
  of a place.
* `Source.Refers`: the label that a name refers to at a place.
* `Source.Lists`: a table with the labels of a source.
* `Source.Resolves`: a statement whose operands refer to what their names refer to.
* `Parse.Reads`: what holds while items are read; `Parse.reads_foldl` shows it for a whole source.
* `Preprocess.missing_run`: missing labels are not found out about before labels are linked.
* `Assembler.resolves_parse`: the operands of every parsed file are resolved.
-/

namespace EightBit

/-- What stands on a line: any number of labels, and then at most one statement. -/
inductive SourceItem
  | label (name colon : Token)
  | statement (head : Token) (args : List Token)
deriving DecidableEq, Repr

namespace SourceItem

/-- The tokens of an item. -/
def tokens : SourceItem → List Token
  | label name colon => [name, colon]
  | statement head args => head :: args

/-- The name that an item declares. -/
def name? : SourceItem → Option Text
  | label name _ => some name.text
  | statement .. => none

/-- The items of a line. -/
def ofLine (l : Line) : List SourceItem :=
  let (labels, rest) := Statement.splitLabels (Token.trimRight l.tokens)
  labels.map (fun (name, colon) => .label name colon) ++
    match rest with
    | [] => []
    | head :: args => [.statement head args]

end SourceItem

/-- A source as a list of labels and statements. -/
structure Source where
  /-- How sub-labels are told from other labels. -/
  dialect : Dialect
  /-- The labels and statements, in order. -/
  items : List SourceItem

namespace Source

/-- The source that some tokens make up. -/
def ofTokens (dialect : Dialect) (tokens : List Token) : Source :=
  ⟨dialect, (Line.ofTokens tokens).flatMap SourceItem.ofLine⟩

variable (src : Source)

/-- The name that is declared at a place. -/
def nameAt? (p : Nat) : Option Text := src.items[p]?.bind SourceItem.name?

/-- Whether a label stands at a place that is no sub-label. -/
def isTop (p : Nat) : Bool := (src.nameAt? p).any fun name => !src.dialect.isSubLabel name

/-- The nearest label in front of a place that is no sub-label. -/
def scope? : Nat → Option Nat
  | 0 => none
  | q + 1 => if src.isTop q then some q else scope? q

/-- Whether a label is declared at a place. A sub-label needs a label in front of it. -/
def isDeclared (p : Nat) : Bool :=
  (src.nameAt? p).any fun name => !src.dialect.isSubLabel name || (src.scope? p).isSome

/-- The number of the label at a place: labels are numbered in the order of their declarations. -/
def labelId (p : Nat) : Nat := (List.range p).countP src.isDeclared

/-- A label of the given name that is no sub-label stands at a place. -/
def TopAt (p : Nat) (name : Text) : Prop :=
  src.nameAt? p = some name ∧ src.dialect.isSubLabel name = false

/-- A sub-label of the given name stands at a place, under the label at `t`. -/
def SubAt (p t : Nat) (name : Text) : Prop :=
  src.nameAt? p = some name ∧ src.dialect.isSubLabel name = true ∧ src.scope? p = some t

/-- A sub-label stands at a place whose name, after that of the label it stands under, is the given one. -/
def FullAt (p : Nat) (name : Text) : Prop :=
  ∃ t parent own, src.SubAt p t own ∧ src.TopAt t parent ∧ parent ++ own = name

/-- The label at `p` is what a name refers to at the place `q`. -/
inductive Refers (q : Nat) (name : Text) : Nat → Prop
  /-- The sub-label of this name under the same label. -/
  | sub {t p : Nat} (hscope : src.scope? q = some t) (hp : src.SubAt p t name) : Refers q name p
  /-- Any other label of this name. -/
  | top {p : Nat} (hp : src.TopAt p name) : Refers q name p
  /-- If there is none, the first sub-label of this full name. -/
  | full {p : Nat} (hname : src.dialect.isSubLabel name = false) (htop : ∀ k, ¬ src.TopAt k name)
    (hp : src.FullAt p name) (hfirst : ∀ k < p, ¬ src.FullAt k name) : Refers q name p

/-! ## Places of labels -/

variable {src}

theorem isTop_iff {p : Nat} : src.isTop p ↔ ∃ name, src.TopAt p name := by
  simp only [isTop, TopAt]
  cases src.nameAt? p <;> simp

theorem TopAt.isDeclared {p : Nat} {name : Text} (h : src.TopAt p name) : src.isDeclared p := by
  simp [Source.isDeclared, h.1, h.2]

theorem SubAt.isDeclared {p t : Nat} {name : Text} (h : src.SubAt p t name) : src.isDeclared p := by
  simp [Source.isDeclared, h.1, h.2.2]

theorem lt_length_of_isDeclared {p : Nat} (h : src.isDeclared p) : p < src.items.length := by
  by_contra hp
  simp [isDeclared, nameAt?, List.getElem?_eq_none (Nat.not_lt.1 hp)] at h

/-- The label that a place is under stands in front of it, and is no sub-label. -/
theorem of_scope? {q t : Nat} (h : src.scope? q = some t) : t < q ∧ src.isTop t := by
  induction q with
  | zero => cases h
  | succ q ih =>
    rw [scope?] at h
    split_ifs at h with htop
    · cases h
      exact ⟨Nat.lt_succ_self _, htop⟩
    · exact ⟨Nat.lt_succ_of_lt (ih h).1, (ih h).2⟩

theorem isDeclared_of_scope? {q t : Nat} (h : src.scope? q = some t) : src.isDeclared t := by
  obtain ⟨name, hname⟩ := isTop_iff.1 (of_scope? h).2
  exact hname.isDeclared

theorem labelId_succ (p : Nat) :
    src.labelId (p + 1) = src.labelId p + if src.isDeclared p then 1 else 0 := by
  simp only [labelId, List.range_succ, List.countP_append, List.countP_singleton]

theorem labelId_le {p q : Nat} (h : p ≤ q) : src.labelId p ≤ src.labelId q := by
  induction q, h using Nat.le_induction with
  | base => exact le_rfl
  | succ q _ ih =>
    rw [labelId_succ]
    omega

/-- Labels have larger numbers than those in front of them. -/
theorem labelId_lt {p q : Nat} (hp : src.isDeclared p) (h : p < q) : src.labelId p < src.labelId q := by
  have hle := src.labelId_le (Nat.succ_le_of_lt h)
  rw [Nat.succ_eq_add_one, labelId_succ, if_pos hp] at hle
  omega

theorem labelId_inj {p q : Nat} (hp : src.isDeclared p) (hq : src.isDeclared q)
    (h : src.labelId p = src.labelId q) : p = q := by
  rcases Nat.lt_trichotomy p q with hlt | heq | hgt
  · exact absurd h (labelId_lt hp hlt).ne
  · exact heq
  · exact absurd h (labelId_lt hq hgt).ne'

end Source

/-! ## Tables of labels -/

/-- A live label is found by its parent and its name. -/
theorem LabelTable.Keyed.lookup?_eq {t : LabelTable} (h : t.Keyed) {x : LabelId × Label} (hx : x ∈ t.live) :
    t.lookup? x.2.parent x.2.name = some x.1 := by
  cases hfound : t.lookup? x.2.parent x.2.name with
  | none => exact absurd rfl (lookup?_eq_none_iff.1 hfound x hx rfl)
  | some id =>
    obtain ⟨k, hk, hparent, hname⟩ := exists_of_lookup? hfound
    exact congrArg some (h.unique _ hk x hx hparent hname)

namespace Source

variable (src : Source)

/-- A label as it is declared at a place. -/
structure Declares (p : Nat) (l : Label) : Prop where
  item : ∃ colon, src.items[p]? = some (.label l.token colon)
  name : l.name = l.token.text
  parent : l.parent = if src.dialect.isSubLabel l.name then (src.scope? p).map src.labelId else none
  live : l.dropped = false

/-- A table with the labels that are declared at the first `n` places of a source, in order. -/
structure Lists (n : Nat) (t : LabelTable) : Prop where
  size : t.size = src.labelId n
  labels : ∀ id l, t.get? id = some l →
    ∃ p < n, src.isDeclared p ∧ src.labelId p = id ∧ src.Declares p l

variable {src} {n : Nat} {t t' : LabelTable}

theorem Declares.nameAt? {p : Nat} {l : Label} (h : src.Declares p l) : src.nameAt? p = some l.name := by
  obtain ⟨colon, hitem⟩ := h.item
  rw [Source.nameAt?, hitem, h.name]
  rfl

/-- Exports do not count. -/
theorem Lists.congr (h : src.Lists n t)
    (hsame : t'.labels.map (fun l => { l with global := false }) =
      t.labels.map fun l => { l with global := false }) : src.Lists n t' := by
  refine ⟨?_, fun id l hl => ?_⟩
  · rw [← h.size, LabelTable.size, LabelTable.size]
    simpa using congrArg List.length hsame
  · have hget := congrArg (·[id]?) hsame
    simp only [List.getElem?_map] at hget
    rw [show t'.labels[id]? = some l from hl, Option.map_some, eq_comm, Option.map_eq_some_iff] at hget
    obtain ⟨k, hk, heq⟩ := hget
    obtain ⟨p, hp, hdeclared, hid, hitem, hname, hparent, hlive⟩ := h.labels id k hk
    simp only [Label.mk.injEq] at heq
    obtain ⟨hn, hpar, htoken, -, hdropped, -⟩ := heq
    rw [hn, hpar] at hparent
    rw [hn, htoken] at hname
    rw [htoken] at hitem
    exact ⟨p, hp, hdeclared, hid, hitem, hname, hparent, hdropped ▸ hlive⟩

/-- A declared label is in the table. -/
theorem Lists.exists_label (h : src.Lists n t) {p : Nat} (hp : src.isDeclared p) (hlt : p < n) :
    ∃ l, (src.labelId p, l) ∈ t.live ∧ src.Declares p l := by
  have hid : src.labelId p < t.labels.length := by
    rw [← LabelTable.size, h.size]
    exact labelId_lt hp hlt
  have hget : t.get? (src.labelId p) = some t.labels[src.labelId p] := List.getElem?_eq_getElem hid
  obtain ⟨q, -, hq, hsame, hdecl⟩ := h.labels _ _ hget
  obtain rfl := labelId_inj hq hp hsame
  exact ⟨_, LabelTable.mem_live.2 ⟨hget, hdecl.live⟩, hdecl⟩

/-- A label of the table is declared in the source. -/
theorem Lists.exists_place (h : src.Lists n t) {x : LabelId × Label} (hx : x ∈ t.live) :
    ∃ p, src.isDeclared p ∧ src.labelId p = x.1 ∧ src.Declares p x.2 := by
  obtain ⟨p, -, hp, hid, hdecl⟩ := h.labels x.1 x.2 (LabelTable.mem_live.1 hx).1
  exact ⟨p, hp, hid, hdecl⟩

/-- A declared label is no sub-label, or one under a label in front of it. -/
theorem Declares.topAt_or_subAt {p : Nat} {l : Label} (h : src.Declares p l) (hp : src.isDeclared p) :
    l.parent = none ∧ src.TopAt p l.name ∨
      ∃ t, l.parent = some (src.labelId t) ∧ src.SubAt p t l.name := by
  have hparent := h.parent
  have hname := h.nameAt?
  cases hsub : src.dialect.isSubLabel l.name with
  | false =>
    rw [hsub, if_neg Bool.false_ne_true] at hparent
    exact .inl ⟨hparent, hname, hsub⟩
  | true =>
    obtain ⟨t, ht⟩ : ∃ t, src.scope? p = some t := by
      simpa [isDeclared, hname, hsub, Option.isSome_iff_exists] using hp
    rw [hsub, if_pos rfl, ht, Option.map_some] at hparent
    exact .inr ⟨t, hparent, hname, hsub, ht⟩

/-! ## Searching a table -/

section Search

variable (hlists : src.Lists src.items.length t)
include hlists

/-- The full name of a sub-label in the table is that of its place. -/
theorem Lists.fullAt {p s : Nat} {l : Label} (hparent : l.parent = some (src.labelId s))
    (hsub : src.SubAt p s l.name) : src.FullAt p (t.fullNameOf l) := by
  have hs := isDeclared_of_scope? hsub.2.2
  obtain ⟨k, hk, hdecl⟩ := hlists.exists_label hs (lt_length_of_isDeclared hs)
  obtain ⟨name, htop⟩ := isTop_iff.1 (of_scope? hsub.2.2).2
  obtain rfl : name = k.name := Option.some.inj (htop.1.symm.trans hdecl.nameAt?)
  refine ⟨s, k.name, l.name, hsub, htop, ?_⟩
  rw [LabelTable.fullNameOf, hparent, Option.bind_some, (LabelTable.mem_live.1 hk).1]
  rfl

theorem Lists.fullNameOf_eq {p : Nat} {l : Label} (hdecl : src.Declares p l) {name : Text}
    (hfull : src.FullAt p name) : t.fullNameOf l = name := by
  obtain ⟨s, parent, own, hsub, htop, rfl⟩ := hfull
  obtain rfl : own = l.name := Option.some.inj (hsub.1.symm.trans hdecl.nameAt?)
  have hparent : l.parent = some (src.labelId s) := by
    rw [hdecl.parent, hsub.2.1, if_pos rfl, hsub.2.2]
    rfl
  obtain ⟨s', parent', own', hsub', htop', heq⟩ := hlists.fullAt hparent hsub
  obtain rfl : s = s' := Option.some.inj (hsub.2.2.symm.trans hsub'.2.2)
  obtain rfl : parent = parent' := Option.some.inj (htop.1.symm.trans htop'.1)
  obtain rfl : l.name = own' := Option.some.inj (hsub.1.symm.trans hsub'.1)
  exact heq.symm

variable (hkeyed : t.Keyed)
include hkeyed

/-- The search for a name under a label ends at the sub-label of this name. -/
theorem Lists.lookup?_sub {q p s : Nat} {name : Text} (hscope : src.scope? q = some s)
    (hp : src.SubAt p s name) :
    t.lookup? ((src.scope? q).map src.labelId) name = some (src.labelId p) := by
  obtain ⟨l, hl, hdecl⟩ := hlists.exists_label hp.isDeclared (lt_length_of_isDeclared hp.isDeclared)
  obtain rfl : name = l.name := Option.some.inj (hp.1.symm.trans hdecl.nameAt?)
  have hparent : l.parent = (src.scope? q).map src.labelId := by
    rw [hdecl.parent, hp.2.1, if_pos rfl, hp.2.2, hscope]
  rw [← hparent]
  exact hkeyed.lookup?_eq hl

theorem Lists.lookup?_top {p : Nat} {name : Text} (hp : src.TopAt p name) :
    t.lookup? none name = some (src.labelId p) := by
  obtain ⟨l, hl, hdecl⟩ := hlists.exists_label hp.isDeclared (lt_length_of_isDeclared hp.isDeclared)
  obtain rfl : name = l.name := Option.some.inj (hp.1.symm.trans hdecl.nameAt?)
  have hparent : l.parent = none := by
    rw [hdecl.parent, hp.2, if_neg Bool.false_ne_true]
  rw [← hparent]
  exact hkeyed.lookup?_eq hl

omit hkeyed in
/-- What the search for a name without a parent ends at is no sub-label. -/
theorem Lists.exists_topAt {name : Text} {id : LabelId} (h : t.lookup? none name = some id) :
    ∃ p, src.TopAt p name := by
  obtain ⟨l, hl, hparent, rfl⟩ := LabelTable.exists_of_lookup? h
  obtain ⟨p, hp, -, hdecl⟩ := hlists.exists_place hl
  rcases hdecl.topAt_or_subAt hp with ⟨-, htop⟩ | ⟨s, hsome, -⟩
  · exact ⟨p, htop⟩
  · rw [hparent] at hsome
    cases hsome

omit hkeyed in
/-- Where no other label has the name, the search for a full name ends at the first sub-label with it. -/
theorem Lists.exists_fullAt {name : Text} (htop : ∀ k, ¬ src.TopAt k name) {id : LabelId}
    (h : t.lookupFull? name = some id) : ∃ p, src.labelId p = id ∧ src.isDeclared p ∧ src.FullAt p name := by
  obtain ⟨l, hl, rfl⟩ := LabelTable.exists_of_lookupFull? h
  obtain ⟨p, hp, hid, hdecl⟩ := hlists.exists_place hl
  rcases hdecl.topAt_or_subAt hp with ⟨hnone, htopAt⟩ | ⟨s, hparent, hsub⟩
  · have hown : t.fullNameOf l = l.name := by rw [LabelTable.fullNameOf, hnone]; rfl
    exact absurd (hown ▸ htopAt) (htop p)
  · exact ⟨p, hid, hp, hlists.fullAt hparent hsub⟩

/-- A name is resolved to the label that it refers to. -/
theorem Lists.resolve?_of_refers {q p : Nat} {name : Text} (h : src.Refers q name p) :
    t.resolve? src.dialect ((src.scope? q).map src.labelId) name = some (src.labelId p) := by
  cases h with
  | sub hscope hp =>
    rw [LabelTable.resolve?, hp.2.1, if_pos rfl]
    exact hlists.lookup?_sub hkeyed hscope hp
  | top hp =>
    rw [LabelTable.resolve?, hp.2, if_neg Bool.false_ne_true, hlists.lookup?_top hkeyed hp]
    rfl
  | full hname htop hp hfirst =>
    have hnone : t.lookup? none name = none := by
      by_contra hsome
      obtain ⟨id, hid⟩ := Option.ne_none_iff_exists'.1 hsome
      obtain ⟨k, hk⟩ := hlists.exists_topAt hid
      exact htop k hk
    rw [LabelTable.resolve?, hname, if_neg Bool.false_ne_true, hnone, Option.none_or]
    obtain ⟨s, parent, own, hsub, -⟩ := id hp
    obtain ⟨l, hl, hdecl⟩ := hlists.exists_label hsub.isDeclared (lt_length_of_isDeclared hsub.isDeclared)
    have hfull := hlists.fullNameOf_eq hdecl hp
    cases hfound : t.lookupFull? name with
    | none => exact absurd hfull (LabelTable.lookupFull?_eq_none_iff.1 hfound _ hl)
    | some id =>
      -- What is found is no later than the label, and the label is the first.
      have hle := LabelTable.le_of_lookupFull? hfound hl hfull
      obtain ⟨k, rfl, hk, hkfull⟩ := hlists.exists_fullAt htop hfound
      have hpk : p ≤ k := Nat.le_of_not_lt fun hlt => hfirst k hlt hkfull
      exact congrArg some (Nat.le_antisymm hle (labelId_le hpk))

omit hkeyed in
/-- A name that refers to nothing is not resolved. -/
theorem Lists.resolve?_eq_none {q : Nat} {name : Text} (h : ∀ p, ¬ src.Refers q name p) :
    t.resolve? src.dialect ((src.scope? q).map src.labelId) name = none := by
  by_contra hsome
  obtain ⟨id, hid⟩ := Option.ne_none_iff_exists'.1 hsome
  cases hsub : src.dialect.isSubLabel name with
  | true =>
    rw [LabelTable.resolve?, hsub, if_pos rfl] at hid
    obtain ⟨l, hl, hparent, rfl⟩ := LabelTable.exists_of_lookup? hid
    obtain ⟨p, hp, -, hdecl⟩ := hlists.exists_place hl
    rcases hdecl.topAt_or_subAt hp with ⟨-, htop⟩ | ⟨s, hs, hsubAt⟩
    · rw [htop.2] at hsub
      cases hsub
    · rw [hparent] at hs
      obtain ⟨s', hscope, hsame⟩ := Option.map_eq_some_iff.1 hs
      obtain rfl := labelId_inj (isDeclared_of_scope? hscope) (isDeclared_of_scope? hsubAt.2.2) hsame
      exact h p (.sub hscope hsubAt)
  | false =>
    have htop : ∀ k, ¬ src.TopAt k name := fun k hk => h k (.top hk)
    rw [LabelTable.resolve?, hsub, if_neg Bool.false_ne_true] at hid
    rcases Option.or_eq_some_iff.1 hid with hid | ⟨-, hid⟩
    · obtain ⟨k, hk⟩ := hlists.exists_topAt hid
      exact htop k hk
    · -- Some sub-label has the full name, and then a first one has it.
      obtain ⟨k, -, -, hk⟩ := hlists.exists_fullAt htop hid
      classical
      have hexists : ∃ p, src.FullAt p name := ⟨k, hk⟩
      exact h (Nat.find hexists) (.full hsub htop (Nat.find_spec hexists) fun _ => Nat.find_min hexists)

end Search

end Source

/-! ## Reading items -/

/-- Whether a diagnostic is that a label is missing. -/
def Diagnostic.isLabelMissing (d : Diagnostic) : Bool :=
  match d.cause with
  | .labelMissing _ => true
  | _ => false

/-- An error other than a missing label. -/
def Diagnostic.IsRejection (d : Diagnostic) : Prop := d.isError ∧ d.isLabelMissing = false

/-- A line is refused by an error, but never for want of a label. -/
theorem Diagnostic.IsRefusal.isRejection {d : Diagnostic} (h : d.IsRefusal) : d.IsRejection := by
  refine ⟨h.isError, ?_⟩
  have hcause := h.cause
  unfold isLabelMissing
  cases hc : d.cause <;> simp_all [Cause.isOfLine]

section Sublist

variable {α β : Type} {R : α → β → Prop} {as : List α} {bs : List β}

theorem sublistForall₂_skip (h : List.SublistForall₂ R as bs) (b : β) :
    List.SublistForall₂ R as (bs ++ [b]) := by
  obtain ⟨cs, hforall, hsub⟩ := List.sublistForall₂_iff.1 h
  exact List.sublistForall₂_iff.2 ⟨cs, hforall, hsub.trans (List.sublist_append_left bs [b])⟩

theorem sublistForall₂_concat (h : List.SublistForall₂ R as bs) {a : α} {b : β} (hab : R a b) :
    List.SublistForall₂ R (as ++ [a]) (bs ++ [b]) := by
  obtain ⟨cs, hforall, hsub⟩ := List.sublistForall₂_iff.1 h
  exact List.sublistForall₂_iff.2
    ⟨cs ++ [b], List.rel_append hforall (.cons hab .nil), hsub.append (List.Sublist.refl [b])⟩

/-- Elements may be left out. -/
theorem sublistForall₂_of_sublist (h : List.SublistForall₂ R as bs) {cs : List α} (hsub : cs.Sublist as) :
    List.SublistForall₂ R cs bs := by
  induction h generalizing cs with
  | nil =>
    rw [List.sublist_nil.1 hsub]
    exact .nil
  | cons hab _ ih =>
    cases hsub with
    | cons _ hsub => exact .cons_right (ih hsub)
    | cons_cons _ hsub => exact .cons hab (ih hsub)
  | cons_right _ ih => exact .cons_right (ih hsub)

end Sublist

namespace Source

/-- A statement that was read at a place. -/
structure StandsAt (src : Source) (n : Node) (q : Nat) : Prop where
  item : ∃ it, src.items[q]? = some it ∧ n.tokens = it.tokens
  label : ∀ id ∈ n.declared?, src.isDeclared q ∧ src.labelId q = id
  /-- Instructions and data look up sub-labels under the nearest label. -/
  scope : n.kind = .instruction ∨ n.kind = .initializedData → n.scope = (src.scope? q).map src.labelId

variable {src : Source} {n : Nat} {t : LabelTable}

/-- A place where nothing is declared adds no label to a table. -/
theorem Lists.skip (h : src.Lists n t) (hn : src.isDeclared n = false) : src.Lists (n + 1) t := by
  refine ⟨by rw [h.size, labelId_succ, hn]; rfl, fun id l hl => ?_⟩
  obtain ⟨p, hp, hrest⟩ := h.labels id l hl
  exact ⟨p, Nat.lt_succ_of_lt hp, hrest⟩

theorem Lists.declare (h : src.Lists n t) (hn : src.isDeclared n) {l : Label} (hl : src.Declares n l) :
    src.Lists (n + 1) (t.add l) := by
  have hsize : (t.add l).size = t.size + 1 := by simp [LabelTable.add, LabelTable.size]
  refine ⟨by rw [hsize, h.size, labelId_succ, if_pos hn], fun id k hk => ?_⟩
  rcases Nat.lt_or_ge id t.size with hid | hid
  · rw [LabelTable.get?, LabelTable.add, List.getElem?_append_left hid] at hk
    obtain ⟨p, hp, hrest⟩ := h.labels id k hk
    exact ⟨p, Nat.lt_succ_of_lt hp, hrest⟩
  · rw [LabelTable.get?, LabelTable.add, List.getElem?_append_right hid] at hk
    obtain ⟨hlt, heq⟩ := List.getElem?_eq_some_iff.1 hk
    have hlast : id = t.size := Nat.le_antisymm (by simp [LabelTable.size] at hlt ⊢; omega) hid
    obtain rfl : l = k := by simpa using heq
    exact ⟨n, Nat.lt_succ_self n, hn, by rw [← h.size, hlast], hl⟩

end Source

namespace Parse

/-- The state after one more label or statement. -/
def item (arch : Architecture) (s : Parse) : SourceItem → Parse
  | .label name colon => label arch.dialect s (name, colon)
  | .statement head args =>
    match Statement.node arch s.parent head args with
    | .ok n => s.add n
    | .error d => s.report d

theorem line_eq_foldl (arch : Architecture) (s : Parse) (l : Line) :
    s.line arch l.tokens = (SourceItem.ofLine l).foldl (item arch) s := by
  unfold line SourceItem.ofLine
  simp only [List.foldl_append, List.foldl_map]
  rcases (Statement.splitLabels (Token.trimRight l.tokens)).2 with _ | ⟨head, args⟩
  · rfl
  · rfl

/-- A file that is not abandoned is read item by item. -/
theorem lines_eq_foldl (arch : Architecture) {s : Parse} {ls : List Line}
    (h : (lines arch s ls).isDone = false) :
    lines arch s ls = (ls.flatMap SourceItem.ofLine).foldl (item arch) s := by
  induction ls generalizing s with
  | nil => rfl
  | cons l rest ih =>
    unfold lines at h ⊢
    split_ifs at h ⊢ with hdone
    · rw [hdone] at h
      cases h
    · rw [List.flatMap_cons, List.foldl_append, ← line_eq_foldl]
      exact ih h

/-- What holds once the items at the first `n` places of a source are read. -/
structure Reads (src : Source) (n : Nat) (s : Parse) : Prop where
  table : src.Lists n s.labels
  /-- The last label that is no sub-label is the nearest one. -/
  parent : s.parent = (src.scope? n).map src.labelId
  nodes : List.SublistForall₂ src.StandsAt s.nodes (List.range n)

variable {src : Source} {n : Nat} {s : Parse}

theorem Reads.report (h : Reads src n s) (d : Diagnostic) : Reads src n (s.report d) := by
  obtain ⟨errors, heq⟩ := exists_report_eq s d
  rw [heq]
  exact ⟨h.table, h.parent, h.nodes⟩

/-- Where nothing is declared, a place may be passed. -/
theorem Reads.skip (h : Reads src n s) (hn : src.nameAt? n = none ∨ src.isDeclared n = false) :
    Reads src (n + 1) s := by
  have hdeclared : src.isDeclared n = false := by
    rcases hn with hn | hn
    · simp [Source.isDeclared, hn]
    · exact hn
  have htop : src.isTop n = false := by
    by_contra htop
    obtain ⟨name, hname⟩ := Source.isTop_iff.1 (Bool.not_eq_false _ ▸ htop)
    rw [hname.isDeclared] at hdeclared
    cases hdeclared
  refine ⟨h.table.skip hdeclared, ?_, ?_⟩
  · rw [h.parent, Source.scope?, htop]
    rfl
  · rw [List.range_succ]
    exact sublistForall₂_skip h.nodes n

/-- A label is added to the table together with its declaration. -/
theorem Reads.declare (h : Reads src n s) (hn : src.isDeclared n) {l : Label} (hl : src.Declares n l)
    {tokens : List Token} (htokens : ∃ it, src.items[n]? = some it ∧ tokens = it.tokens)
    {parent : Option LabelId} (hparent : parent = (src.scope? (n + 1)).map src.labelId) :
    Reads src (n + 1) ({ s with labels := s.labels.add l, parent }.add
      { tokens, element := .label s.labels.size }) := by
  refine ⟨h.table.declare hn hl, hparent, ?_⟩
  rw [List.range_succ]
  refine sublistForall₂_concat h.nodes ⟨htokens, ?_, ?_⟩
  · rintro id ⟨⟩
    exact ⟨hn, h.table.size.symm⟩
  · rintro (hkind | hkind) <;> cases hkind

theorem Reads.label (h : Reads src n s) {name colon : Token}
    (hitem : src.items[n]? = some (.label name colon)) :
    Reads src (n + 1) (Parse.label src.dialect s (name, colon)) := by
  have hname : src.nameAt? n = some name.text := by
    rw [Source.nameAt?, hitem]
    rfl
  have htokens : ∃ it, src.items[n]? = some it ∧ [name, colon] = it.tokens := ⟨_, hitem, rfl⟩
  unfold Parse.label
  simp only
  cases hsub : src.dialect.isSubLabel name.text with
  | false =>
    have htop : src.TopAt n name.text := ⟨hname, hsub⟩
    refine h.declare htop.isDeclared ⟨⟨colon, hitem⟩, rfl, ?_, rfl⟩ htokens ?_
    · rw [hsub]
      rfl
    · rw [Source.scope?, if_pos (Source.isTop_iff.2 ⟨_, htop⟩), h.table.size]
      rfl
  | true =>
    have hnottop : src.isTop n = false := by simp [Source.isTop, hname, hsub]
    cases hscope : src.scope? n with
    | none =>
      -- A sub-label without a label in front of it is reported.
      rw [h.parent, hscope]
      refine (h.report _).skip (.inr ?_)
      simp [Source.isDeclared, hname, hsub, hscope]
    | some t =>
      have hsubAt : src.SubAt n t name.text := ⟨hname, hsub, hscope⟩
      rw [h.parent, hscope]
      refine h.declare hsubAt.isDeclared ⟨⟨colon, hitem⟩, rfl, ?_, rfl⟩ htokens ?_
      · rw [hsub, hscope]
        rfl
      · rw [Source.scope?, hnottop, if_neg Bool.false_ne_true, hscope]

/-- A statement that can be read looks up sub-labels under the nearest label. -/
theorem Reads.statement (h : Reads src n s) (arch : Architecture) {head : Token} {args : List Token}
    (hitem : src.items[n]? = some (.statement head args)) :
    Reads src (n + 1) (Parse.item arch s (.statement head args)) := by
  have hname : src.nameAt? n = none := by
    rw [Source.nameAt?, hitem]
    rfl
  have hskip := h.skip (.inl hname)
  unfold Parse.item
  simp only
  cases hnode : Statement.node arch s.parent head args with
  | error d => exact hskip.report d
  | ok k =>
    have hdecl := (node_fresh hnode).2
    obtain ⟨e, -, rfl⟩ := exists_of_map_eq_ok hnode
    refine ⟨hskip.table, hskip.parent, ?_⟩
    rw [List.range_succ]
    refine sublistForall₂_concat h.nodes ⟨⟨_, hitem, rfl⟩, ?_, ?_⟩
    · intro id hid
      rw [hdecl] at hid
      cases hid
    · intro hkind
      exact (if_pos hkind).trans h.parent

theorem Reads.item (h : Reads src n s) {arch : Architecture} (hdialect : src.dialect = arch.dialect)
    {it : SourceItem} (hitem : src.items[n]? = some it) : Reads src (n + 1) (Parse.item arch s it) := by
  cases it with
  | label name colon =>
    have hread := h.label hitem
    rwa [hdialect] at hread
  | statement head args => exact h.statement arch hitem

/-- All items of a source are read. -/
theorem reads_foldl {arch : Architecture} (hdialect : src.dialect = arch.dialect) :
    Reads src src.items.length (src.items.foldl (Parse.item arch) {}) := by
  -- After each place the state is that of the items in front of it.
  have hsteps : ∀ n ≤ src.items.length, Reads src n ((src.items.take n).foldl (Parse.item arch) {}) := by
    intro n hn
    induction n with
    | zero => exact ⟨⟨rfl, by simp [LabelTable.get?]⟩, rfl, .nil⟩
    | succ n ih =>
      have hget : src.items[n]? = some src.items[n] := List.getElem?_eq_getElem hn
      rw [List.take_add_one, hget, Option.toList_some, List.foldl_append]
      exact (ih (Nat.le_of_succ_le hn)).item hdialect hget
  have hall := hsteps src.items.length le_rfl
  rwa [List.take_length] at hall

/-! ## What is rejected -/

theorem isRejection_report {s : Parse} (hs : ∀ e ∈ s.errors, e.IsRejection) {d : Diagnostic}
    (hd : d.IsRejection) : ∀ e ∈ (s.report d).errors, e.IsRejection := by
  intro e he
  unfold report at he
  split_ifs at he
  · exact hs e he
  · rcases List.mem_append.1 he with he | he
    · exact hs e he
    · rw [List.mem_singleton.1 he]
      exact hd
  · rcases List.mem_append.1 he with he | he
    · exact hs e he
    · -- The last error is followed by the notice that there are too many.
      rcases List.mem_cons.1 he with rfl | he
      · exact hd
      · rw [List.mem_singleton.1 he]
        exact ⟨rfl, rfl⟩

/-- What the lines of a file are rejected for are errors, and no missing labels. -/
theorem isRejection_lines (arch : Architecture) {s : Parse} (hs : ∀ e ∈ s.errors, e.IsRejection)
    (ls : List Line) : ∀ e ∈ (lines arch s ls).errors, e.IsRejection :=
  errors_lines (P := fun es => ∀ e ∈ es, e.IsRejection)
    (fun _ _ hs hd => isRejection_report hs hd.isRejection) arch hs ls

/-- So are statements in a section that does not allow them. -/
theorem isRejection_of_mem_bundle {kind : SectionKind} {ns : List Node} :
    ∀ d ∈ (bundle kind ns).2.2, d.IsRejection := by
  intro d hd
  obtain ⟨n, -, k, -, rfl⟩ := exists_of_mem_bundle hd
  exact ⟨rfl, rfl⟩

end Parse

/-! ## Linking without duplicates -/

theorem Section.rebuild_nodes_cons {σ : Type} (step : σ → Node → σ × Option Node) (s : σ) (n : Node)
    (rest : List Node) :
    rebuild.nodes step s (n :: rest) =
      ((rebuild.nodes step (step s n).1 rest).1,
        (step s n).2.toList ++ (rebuild.nodes step (step s n).1 rest).2) := rfl

theorem LabelTable.modify_eq_self {t : LabelTable} {id : LabelId} {f : Label → Label}
    (h : ∀ l, t.get? id = some l → f l = l) : t.modify id f = t := by
  obtain ⟨labels⟩ := t
  refine congrArg LabelTable.mk (List.ext_getElem? fun n => ?_)
  rw [List.getElem?_modify]
  cases hl : labels[n]? with
  | none => rfl
  | some l =>
    by_cases hn : id = n
    · subst hn
      simp [h l hl]
    · simp [hn]

namespace Link

theorem Duplicates.target_of_unmoved {s : Duplicates} (h : s.moved = []) (scope : Option LabelId) :
    scope.map s.target = scope := by
  cases scope <;> simp [target, h]

/-- A step that reports nothing changes nothing, if nothing was moved before. -/
theorem dropDuplicate_of_quiet {s : Duplicates} (hmoved : s.moved = []) {n : Node}
    (hquiet : (dropDuplicate s n).1.diagnostics = s.diagnostics) :
    (dropDuplicate s n).2 = some n ∧ (dropDuplicate s n).1.labels = s.labels ∧
      (dropDuplicate s n).1.moved = [] := by
  have hscope := Duplicates.target_of_unmoved hmoved n.scope
  cases hid : n.declared? with
  | none =>
    rw [dropDuplicate_of_not_label s hid, hscope]
    exact ⟨rfl, rfl, hmoved⟩
  | some id =>
    cases hl : s.labels.get? id with
    | none =>
      rw [dropDuplicate_of_unknown s hid hl, hscope]
      exact ⟨rfl, rfl, hmoved⟩
    | some l =>
      rw [dropDuplicate_of_label s hid hl] at hquiet ⊢
      simp only [hscope, Duplicates.target_of_unmoved hmoved] at hquiet ⊢
      have hsame : (s.labels.modify id fun k => { k with parent := l.parent }) = s.labels := by
        refine LabelTable.modify_eq_self fun k hk => ?_
        obtain rfl : l = k := Option.some.inj (hl.symm.trans hk)
        rfl
      cases hfirst : s.seen.lookup (l.parent, l.name) with
      | none => exact ⟨rfl, hsame, hmoved⟩
      | some first => simp [hfirst] at hquiet

/-- Where no duplicate is reported, nothing is changed. -/
theorem rebuild_dropDuplicate_of_quiet {s : Duplicates} (hmoved : s.moved = []) {ns : List Node}
    (hquiet : (Section.rebuild.nodes dropDuplicate s ns).1.diagnostics = s.diagnostics) :
    (Section.rebuild.nodes dropDuplicate s ns).2 = ns ∧
      (Section.rebuild.nodes dropDuplicate s ns).1.labels = s.labels := by
  induction ns generalizing s with
  | nil => exact ⟨rfl, rfl⟩
  | cons n rest ih =>
    -- Reports are only ever added, so that the first step has added none.
    have hgrows : ∀ (s : Duplicates) (ms : List Node), ∃ more,
        (Section.rebuild.nodes dropDuplicate s ms).1.diagnostics = s.diagnostics ++ more := by
      intro s ms
      refine Section.rebuild_nodes_state
        (P := fun s' : Duplicates => ∃ more, s'.diagnostics = s.diagnostics ++ more) ?_ ⟨[], by simp⟩ ms
      rintro s' m ⟨more, hmore⟩
      obtain ⟨new, hnew, -⟩ := exists_diagnostics_dropDuplicate s' m
      exact ⟨more ++ new, by rw [hnew, hmore, List.append_assoc]⟩
    obtain ⟨new, hnew, -⟩ := exists_diagnostics_dropDuplicate s n
    obtain ⟨more, hmore⟩ := hgrows (dropDuplicate s n).1 rest
    have hfinal : (dropDuplicate s n).1.diagnostics ++ more = s.diagnostics := hmore.symm.trans hquiet
    obtain ⟨rfl, rfl⟩ : new = [] ∧ more = [] := by
      rw [hnew, List.append_assoc] at hfinal
      exact List.append_eq_nil_iff.1 (List.append_right_eq_self.1 hfinal)
    rw [List.append_nil] at hnew hmore
    obtain ⟨hkept, hlabels, hstill⟩ := dropDuplicate_of_quiet hmoved hnew
    obtain ⟨hrest, hsame⟩ := ih hstill hmore
    refine ⟨?_, hsame.trans hlabels⟩
    rw [Section.rebuild_nodes_cons, hkept, hrest]
    rfl

end Link

theorem Tree.deduplicated_of_quiet {t : Tree} {arch : Architecture}
    (h : ∀ d ∈ (t.link arch).diagnostics, d.cause ≠ .labelDuplicate) :
    t.deduplicated.2 = t.nodes ∧ t.deduplicated.1.labels = t.labels ∧ t.deduplicated.1.diagnostics = [] := by
  -- A duplicate would be among the diagnostics of the linked tree.
  have hquiet : t.deduplicated.1.diagnostics = [] := by
    refine List.eq_nil_iff_forall_not_mem.2 fun d hd => h d ?_ (t.cause_of_mem_deduplicated d hd)
    rw [diagnostics_link]
    simp [hd]
  obtain ⟨hnodes, hlabels⟩ := Link.rebuild_dropDuplicate_of_quiet (s := { labels := t.labels }) rfl hquiet
  exact ⟨hnodes, hlabels, hquiet⟩

/-! ## Resolving references -/

/-- The diagnostics of the words in a statement that refer to no label. -/
def Node.unresolved (n : Node) : List Diagnostic :=
  (n.element.operands.filter fun op => op.isWord && op.ref.isNone).map fun op =>
    .error (.labelMissing op.token.text) [op.token]

/-- A statement that was read at a place, with its operands resolved: a word refers to the label that it
refers to at the place in the source, and to nothing if there is no such label. -/
structure Source.Resolves (src : Source) (n : Node) (q : Nat) : Prop extends src.StandsAt n q where
  found : n.kind = .instruction ∨ n.kind = .initializedData → ∀ op ∈ n.element.operands, op.isWord →
    ∀ p, src.Refers q op.token.text p → op.ref = some (src.labelId p)
  missing : n.kind = .instruction ∨ n.kind = .initializedData → ∀ op ∈ n.element.operands, op.isWord →
    (∀ p, ¬ src.Refers q op.token.text p) → op.ref = none

namespace Link

variable {arch : Architecture} {s : References} {n k : Node}

theorem tokens_kind_resolve (hk : k ∈ (resolve arch s n).2) : k.tokens = n.tokens ∧ k.kind = n.kind := by
  rcases resolve_cases hk with ⟨found, name, id, hn, -, rfl⟩ | ⟨-, rfl⟩
  · exact ⟨rfl, by simp [Node.kind, hn, Element.kind]⟩
  · refine ⟨rfl, ?_⟩
    cases hn : n.element <;> simp [Node.kind, hn, Element.mapOperands, Element.kind]

/-- A statement is resolved by a table with the labels of its source. -/
theorem resolves_of_standsAt {src : Source} (hdialect : src.dialect = arch.dialect)
    (hlists : src.Lists src.items.length s.labels) (hkeyed : s.labels.Keyed) {q : Nat}
    (hn : src.StandsAt n q) (hk : k ∈ (resolve arch s n).2) : src.Resolves k q := by
  obtain ⟨htokens, hkind⟩ := tokens_kind_resolve hk
  have hscope := (scope_resolve arch s n).1 k hk
  have hstands : src.StandsAt k q :=
    ⟨htokens ▸ hn.item, (address_resolve arch s n k hk).2 ▸ hn.label, hkind ▸ hscope ▸ hn.scope⟩
  -- A word is looked up under the scope of its statement, which is that of the place.
  have href : k.kind = .instruction ∨ k.kind = .initializedData → ∀ op ∈ k.element.operands, op.isWord →
      op.ref = s.labels.resolve? src.dialect ((src.scope? q).map src.labelId) op.token.text := by
    intro hcode op hop hword
    rcases resolve_cases hk with ⟨found, name, id, hglobal, -, rfl⟩ | ⟨-, rfl⟩
    · rcases hcode with hcode | hcode <;> cases hcode
    · rw [Element.operands_mapOperands] at hop
      obtain ⟨op', -, rfl⟩ := List.mem_map.1 hop
      have hword' : op'.isWord = true := hword
      rw [bind, hdialect, ← hn.scope (hkind ▸ hcode)]
      simp [hword']
  refine ⟨hstands, fun hcode op hop hword p hp => ?_, fun hcode op hop hword hnone => ?_⟩
  · rw [href hcode op hop hword]
    exact hlists.resolve?_of_refers hkeyed hp
  · rw [href hcode op hop hword]
    exact hlists.resolve?_eq_none hnone

theorem filterMap_missing? (ops : List Operand) :
    ops.filterMap missing? = (ops.filter fun op => op.isWord && op.ref.isNone).map fun op =>
      .error (.labelMissing op.token.text) [op.token] := by
  induction ops with
  | nil => rfl
  | cons op rest ih =>
    rw [List.filterMap_cons, missing?, List.filter_cons, ih]
    by_cases hop : (op.isWord && op.ref.isNone) = true
    · rw [if_pos hop, if_pos hop, List.map_cons]
    · rw [if_neg hop, if_neg hop]

/-- A missing label is reported for each word of a statement that refers to none. -/
theorem filter_diagnostics_resolve (hsymbolic : arch.symbolicData = false) (s : References) (n : Node) :
    (resolve arch s n).1.diagnostics.filter Diagnostic.isLabelMissing =
      s.diagnostics.filter Diagnostic.isLabelMissing ++ (resolve arch s n).2.toList.flatMap Node.unresolved := by
  by_cases hn : n.kind = .global
  · -- An export names its label, or is removed and reported as an export.
    obtain ⟨tokens, element, scope, address⟩ := n
    cases element with
    | global found name =>
      unfold resolve
      simp only
      split
      · simp [Diagnostic.isLabelMissing, Diagnostic.error]
      · simp [Node.unresolved, Element.operands]
    | _ => simp [Node.kind, Element.kind] at hn
  · rw [resolve_of_not_global arch s hn]
    simp only [hsymbolic, Bool.false_and, Bool.false_eq_true, if_false, List.filter_append,
      filterMap_missing?, Option.toList_some, List.flatMap_cons, List.flatMap_nil, List.append_nil]
    refine congrArg (_ ++ ·) (List.filter_eq_self.2 fun d hd => ?_)
    obtain ⟨op, -, rfl⟩ := List.mem_map.1 hd
    rfl

end Link

namespace Section

variable {σ : Type} {step : σ → Node → σ × Option Node}

/-- Statements that stand at places still do once they are rebuilt, as each step sees to it. -/
theorem sublistForall₂_rebuild {β : Type} {P : σ → Prop} {R R' : Node → β → Prop}
    (hstate : ∀ s n, P s → P (step s n).1)
    (hstep : ∀ s n b, P s → R n b → ∀ k ∈ (step s n).2, R' k b)
    {ns : List Node} {bs : List β} (h : List.SublistForall₂ R ns bs) {s : σ} (hs : P s) :
    List.SublistForall₂ R' (rebuild.nodes step s ns).2 bs := by
  induction h generalizing s with
  | nil => exact .nil
  | @cons n b ns bs hnb _ ih =>
    rw [rebuild_nodes_cons]
    have hrest := ih (hstate s n hs)
    cases hk : (step s n).2 with
    | none => exact .cons_right hrest
    | some k => exact .cons (hstep s n b hs hnb k hk) hrest
  | cons_right _ ih => exact .cons_right (ih hs)

end Section

/-- Missing labels are reported statement by statement. -/
theorem Link.filter_diagnostics_rebuild {arch : Architecture} (hsymbolic : arch.symbolicData = false)
    (s : Link.References) (ns : List Node) :
    (Section.rebuild.nodes (Link.resolve arch) s ns).1.diagnostics.filter Diagnostic.isLabelMissing =
      s.diagnostics.filter Diagnostic.isLabelMissing ++
        (Section.rebuild.nodes (Link.resolve arch) s ns).2.flatMap Node.unresolved := by
  induction ns generalizing s with
  | nil => exact (List.append_nil _).symm
  | cons n rest ih =>
    rw [Section.rebuild_nodes_cons, ih, Link.filter_diagnostics_resolve hsymbolic, List.flatMap_append,
      List.append_assoc]

/-! ## Whole files -/

namespace Tree

variable {arch : Architecture} {r : Preprocessed}

/-- What was found out about a file before its labels are linked. -/
theorem reads_lines (hopen : (Parse.lines arch {} (Line.ofTokens r.output.tokens)).isDone = false) :
    Parse.Reads (.ofTokens arch.dialect r.output.tokens)
      (Source.ofTokens arch.dialect r.output.tokens).items.length
      (Parse.lines arch {} (Line.ofTokens r.output.tokens)) := by
  rw [Parse.lines_eq_foldl arch hopen]
  exact Parse.reads_foldl rfl

theorem standsAt_own (hopen : (Parse.lines arch {} (Line.ofTokens r.output.tokens)).isDone = false) :
    List.SublistForall₂ (Source.ofTokens arch.dialect r.output.tokens).StandsAt (own arch r).nodes
      (List.range (Source.ofTokens arch.dialect r.output.tokens).items.length) := by
  rw [nodes_own]
  exact sublistForall₂_of_sublist (reads_lines hopen).nodes (Parse.bundle_sublist _ _)

/-- Before labels are linked, none is reported to be missing unless it was before. -/
theorem diagnostics_own (arch : Architecture) (r : Preprocessed) :
    (own arch r).diagnostics.filter Diagnostic.isLabelMissing =
      r.output.diagnostics.filter Diagnostic.isLabelMissing := by
  set found := Parse.lines arch {} (Line.ofTokens r.output.tokens)
  have herrors : found.errors.filter Diagnostic.isLabelMissing = [] :=
    List.filter_eq_nil_iff.2 fun d hd => by simp [(Parse.isRejection_lines arch (by simp) _ d hd).2]
  have hmisplaced : (Parse.sections found.nodes).2.filter Diagnostic.isLabelMissing = [] :=
    List.filter_eq_nil_iff.2 fun d hd => by simp [(Parse.isRejection_of_mem_bundle d hd).2]
  rw [own, List.filter_append, List.filter_append, herrors, hmisplaced, List.append_nil, List.append_nil]

/-- The words of a file that imports nothing refer to what their names refer to in the source, and those
that refer to nothing are reported. -/
theorem resolves_link (himports : r.output.imports = [])
    (hopen : (Parse.lines arch {} (Line.ofTokens r.output.tokens)).isDone = false)
    (hdup : ∀ d ∈ (parse arch r).diagnostics, d.cause ≠ .labelDuplicate) :
    let src := Source.ofTokens arch.dialect r.output.tokens
    src.Lists src.items.length (parse arch r).labels ∧
      List.SublistForall₂ src.Resolves (parse arch r).nodes (List.range src.items.length) ∧
      (arch.symbolicData = false →
        (parse arch r).diagnostics.filter Diagnostic.isLabelMissing =
          r.output.diagnostics.filter Diagnostic.isLabelMissing ++
            (parse arch r).nodes.flatMap Node.unresolved) := by
  intro src
  have hparse : parse arch r = (own arch r).link arch := by
    rw [parse, ofPreprocessed_eq, himports]
    rfl
  have hkeyed := (FromParse.parse arch r (by simp [himports])).keyed
  rw [hparse] at hdup hkeyed ⊢
  obtain ⟨hnodes, hlabels, hquiet⟩ := deduplicated_of_quiet hdup
  -- Without duplicates, references are resolved in the table and the statements of the parser.
  have hlists : src.Lists src.items.length (own arch r).deduplicated.1.labels := by
    rw [hlabels]
    exact (reads_lines hopen).table
  replace hkeyed : (own arch r).deduplicated.1.labels.Keyed := hkeyed.congr (identity_resolved ..).symm
  refine ⟨?_, ?_, fun hsymbolic => ?_⟩
  · rw [labels_link]
    exact hlists.congr (map_resolved _ (fun _ => rfl) arch _)
  · -- Exports are all that changes in the table while references are resolved.
    rw [nodes_link, resolved, hnodes]
    refine Section.sublistForall₂_rebuild
      (P := fun s : Link.References => src.Lists src.items.length s.labels ∧ s.labels.Keyed)
      ?_ ?_ (standsAt_own hopen) ⟨hlists, hkeyed⟩
    · rintro s n ⟨hs, hk⟩
      exact ⟨hs.congr (Link.map_resolve _ (fun _ => rfl) arch s n),
        hk.congr (Link.map_resolve _ (fun _ => rfl) arch s n)⟩
    · rintro s n q ⟨hs, hk⟩ hn k hres
      exact Link.resolves_of_standsAt rfl hs hk hn hres
  · rw [diagnostics_link, hquiet, List.nil_append, List.filter_append, diagnostics_own, nodes_link]
    exact congrArg (_ ++ ·) (Link.filter_diagnostics_rebuild hsymbolic _ _)

end Tree

/-! ## Preprocessing -/

namespace Preprocess

/-- The diagnostics that a label is missing. -/
def Output.missing (o : Output) : List Diagnostic := o.diagnostics.filter Diagnostic.isLabelMissing

/-- The preprocessor misses no labels: it does not know them. -/
theorem missing_run (cfg : Config) (file : Text) (tokens : List Token) :
    (run cfg file tokens).output.missing = [] := by
  refine List.filter_eq_nil_iff.2 fun d hd => ?_
  have hcause := isOfPreprocessing_of_mem_run hd
  unfold Diagnostic.isLabelMissing
  cases hc : d.cause <;> simp_all [Cause.isOfPreprocessing]

end Preprocess

namespace Assembler

/-- The labels and statements of a source text, once it is preprocessed. -/
def source (a : Assembler) (name text : Text) : Source :=
  .ofTokens a.arch.dialect (a.preprocessed name text).output.tokens

theorem missing_preprocessed (a : Assembler) (name text : Text) :
    (a.preprocessed name text).output.missing = [] := by
  have hrun := Preprocess.missing_run { dialect := a.arch.dialect, files := a.files, defines := a.defines } name
    (Token.tokenize a.arch.dialect name text).tokens
  rw [Preprocess.Output.missing] at hrun ⊢
  simp only [preprocessed, List.filter_append, hrun, List.append_nil]
  cases (Token.tokenize a.arch.dialect name text).error <;> rfl

/-- The operands of a file that imports nothing, is read to its end and declares no label twice refer to
the labels that the scoping of the source gives them. Where data may not be symbolic, exactly the words
that refer to no label are reported, in order. -/
theorem resolves_parse (a : Assembler) (name text : Text)
    (himports : (a.preprocessed name text).output.imports = [])
    (hopen : (Parse.lines a.arch {} (Line.ofTokens (a.preprocessed name text).output.tokens)).isDone = false)
    (hdup : ∀ d ∈ (a.parse name text).tree.diagnostics, d.cause ≠ .labelDuplicate) :
    let src := a.source name text
    let t := (a.parse name text).tree
    src.Lists src.items.length t.labels ∧
      List.SublistForall₂ src.Resolves t.nodes (List.range src.items.length) ∧
      (a.arch.symbolicData = false →
        t.diagnostics.filter Diagnostic.isLabelMissing = t.nodes.flatMap Node.unresolved) := by
  intro src t
  have htree : t = Tree.parse a.arch (a.preprocessed name text) := tree_eq_parse a name text
  have hall := Tree.resolves_link himports hopen (htree ▸ hdup)
  rw [← htree] at hall
  refine ⟨hall.1, hall.2.1, fun hsymbolic => ?_⟩
  rw [hall.2.2 hsymbolic, ← Preprocess.Output.missing, missing_preprocessed, List.nil_append]

/-- Sub-labels of one name under two labels, with words that refer to them before and after them and across
the start of a section, and two words that refer to nothing. -/
def scopedSource : Text :=
  "f: JMP .x\n JMP g.x\n.x: NOP\n .text\n JMP .x\n .word f.x, .y\ng:\n.x: JMP f\n JMP .x\n JMP g.y\n"

theorem resolves_parse_scoped :
    let a := ofArchitecture Mos6502.architecture
    let src := a.source "scopes" scopedSource
    let t := (a.parse "scopes" scopedSource).tree
    t.nodes.flatMap (fun n => n.element.operands.map fun op => (op.token.text, op.ref)) =
        ([(".x", some 1), ("g.x", some 3), (".x", some 1), ("f.x", some 1), (".y", none), ("f", some 0),
          (".x", some 3), ("g.y", none)] : List (Text × Option LabelId)) ∧
      src.Lists src.items.length t.labels ∧
      List.SublistForall₂ src.Resolves t.nodes (List.range src.items.length) ∧
      t.diagnostics.filter Diagnostic.isLabelMissing = t.nodes.flatMap Node.unresolved := by
  intro a src t
  have hcheck : (Parse.lines a.arch {}
        (Line.ofTokens (a.preprocessed "scopes" scopedSource).output.tokens)).isDone = false ∧
      (∀ d ∈ t.diagnostics, d.cause ≠ .labelDuplicate) ∧
      t.nodes.flatMap (fun n => n.element.operands.map fun op => (op.token.text, op.ref)) =
        ([(".x", some 1), ("g.x", some 3), (".x", some 1), ("f.x", some 1), (".y", none), ("f", some 0),
          (".x", some 3), ("g.y", none)] : List (Text × Option LabelId)) := by
    decide +kernel
  obtain ⟨hopen, hdup, hrefs⟩ := hcheck
  have himports : (a.preprocessed "scopes" scopedSource).output.imports = [] :=
    imports_preprocessed (fun _ => rfl) _ _
  obtain ⟨hlists, hresolves, hmissing⟩ := resolves_parse a "scopes" scopedSource himports hopen hdup
  exact ⟨hrefs, hlists, hresolves, hmissing rfl⟩

end Assembler

end EightBit
