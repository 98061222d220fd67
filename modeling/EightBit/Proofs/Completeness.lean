import Mathlib
import EightBit.Proofs.Grafting

/-!
# Nothing is lost

Lines are cut into labels and statements, statements are recognised by their forms, put into sections, and
linked; each of these steps may leave something out. Where no error is reported, none does: the tree of a
file holds one statement for each label and each statement of each line, in order, and each of them stands
in the section that the last section directive opened.

* `LineItems`: what stands on a line.
* `SourceItem.Gives`: the statement of a tree that an item of a line becomes.
* `Tree.IsComplete`: a tree that holds all statements of a file.
* `Tree.parse_isComplete`: the trees of files that import nothing.
-/

namespace EightBit

/-! ## Lines -/

/-- What stands on a line: labels, each of them a word with a colon right behind it, and then at most one
statement, which takes all that is left. Blanks may stand in front of each. -/
inductive LineItems : List Token → List SourceItem → Prop
  | nil : LineItems [] []
  | space {t : Token} {ts : List Token} {its : List SourceItem} (ht : t.isSpace) (h : LineItems ts its) :
    LineItems (t :: ts) its
  | label {name colon : Token} {ts : List Token} {its : List SourceItem} (hname : name.kind = .word)
    (hcolon : colon.text = ":") (h : LineItems ts its) :
    LineItems (name :: colon :: ts) (.label name colon :: its)
  | statement {head : Token} {args : List Token} (hspace : head.isSpace = false)
    (hlabel : head.kind = .word → ∀ t ∈ args.head?, t.text ≠ ":") :
    LineItems (head :: args) [.statement head args]

theorem Statement.isSome_matchStart_labelPattern (t u : Token) (rest : List Token) :
    (labelPattern.matchStart (t :: u :: rest)).isSome ↔ t.kind = .word ∧ u.text = ":" := by
  by_cases ht : t.kind = .word
  · by_cases hu : u.text = ":"
    · simp [labelPattern, Pattern.tight, Pattern.matchStart, Pattern.take?, Pattern.ignored,
        Component.word, Component.exactly, Component.accepts, ht, hu]
    · simp [labelPattern, Pattern.tight, Pattern.matchStart, Pattern.take?, Pattern.ignored,
        Component.word, Component.exactly, Component.accepts, ht, hu]
  · simp [labelPattern, Pattern.tight, Pattern.matchStart, Pattern.take?, Pattern.ignored,
      Component.word, Component.exactly, Component.accepts, ht]

/-- The items of a line are what stands on it. -/
theorem lineItems_splitLabels (ts : List Token) :
    LineItems ts ((Statement.splitLabels ts).1.map (fun (name, colon) => .label name colon) ++
      match (Statement.splitLabels ts).2 with
      | [] => []
      | head :: args => [.statement head args]) := by
  -- The cases are those of the scan: no token, one token, a blank, a label, a statement.
  fun_induction Statement.splitLabels ts with
  | case1 => exact .nil
  | case2 t =>
    by_cases ht : t.isSpace = true
    · rw [if_pos ht]
      exact .space ht .nil
    · rw [if_neg ht]
      exact .statement (Bool.eq_false_of_not_eq_true ht) (by simp)
  | case3 t u rest ht ih => exact .space ht ih
  | case4 t u rest _ hmatch labels statement hsplit ih =>
    obtain ⟨hname, hcolon⟩ := (Statement.isSome_matchStart_labelPattern t u rest).1 hmatch
    rw [hsplit] at ih
    exact .label hname hcolon ih
  | case5 t u rest ht hmatch =>
    refine .statement (Bool.eq_false_of_not_eq_true ht) fun hword v hv hcolon => hmatch ?_
    obtain rfl : u = v := Option.some.inj hv
    exact (Statement.isSome_matchStart_labelPattern t u rest).2 ⟨hword, hcolon⟩

/-! ## Items and statements -/

/-- A statement as an item of a line gives it: the declaration of a label that the table holds, or a
statement of the kind that its form dictates, which opens the section that it names. -/
def SourceItem.Gives (arch : Architecture) (labels : LabelTable) : SourceItem → Node → Prop
  | .label name colon, n => n.tokens = [name, colon] ∧ ∃ id l, n.declared? = some id ∧
      labels.get? id = some l ∧ l.token = name ∧ l.name = name.text ∧ l.dropped = false
  | .statement head args, n => n.tokens = head :: args ∧ n.kind = Statement.form arch head args ∧
      n.element.opened? = SectionKind.ofDirective? head.text

/-- A label that was declared stays in the table. -/
theorem SourceItem.Gives.mono {arch : Architecture} {labels labels' : LabelTable} {it : SourceItem} {n : Node}
    (h : it.Gives arch labels n) (hgrows : labels.labels <+: labels'.labels) : it.Gives arch labels' n := by
  cases it with
  | label name colon =>
    obtain ⟨htokens, id, l, hid, hl, hrest⟩ := h
    obtain ⟨more, hmore⟩ := hgrows
    refine ⟨htokens, id, l, hid, ?_, hrest⟩
    rw [LabelTable.get?, ← hmore, List.getElem?_append_left (List.getElem?_eq_some_iff.1 hl).1]
    exact hl
  | statement head args => exact h

namespace Parse

variable {arch : Architecture} {s : Parse}

theorem errors_report_ne_nil (s : Parse) (d : Diagnostic) : (s.report d).errors ≠ [] := by
  unfold report
  split_ifs with hdone
  · intro hnil
    simp [isDone, hnil, errorLimit] at hdone
  · simp
  · simp

theorem gives_label {name colon : Token} {l : Label} (htoken : l.token = name) (hname : l.name = name.text)
    (hdropped : l.dropped = false) :
    (SourceItem.label name colon).Gives arch (s.labels.add l)
      { tokens := [name, colon], element := .label s.labels.size } := by
  refine ⟨rfl, s.labels.size, l, rfl, ?_, htoken, hname, hdropped⟩
  rw [LabelTable.get?, LabelTable.add, LabelTable.size, List.getElem?_concat_length]

/-- An item that is not rejected gives one statement, after those of the items in front of it. -/
theorem item_of_quiet {it : SourceItem} (h : (item arch s it).errors = []) :
    s.errors = [] ∧ s.labels.labels <+: (item arch s it).labels.labels ∧
      ∃ n, (item arch s it).nodes = s.nodes ++ [n] ∧ it.Gives arch (item arch s it).labels n := by
  cases it with
  | label name colon =>
    unfold item label at h ⊢
    simp only at h ⊢
    split_ifs at h ⊢
    · cases hparent : s.parent with
      | none =>
        rw [hparent] at h
        exact absurd h (errors_report_ne_nil s _)
      | some parent =>
        rw [hparent] at h
        exact ⟨h, List.prefix_append _ _, _, rfl, gives_label rfl rfl rfl⟩
    · exact ⟨h, List.prefix_append _ _, _, rfl, gives_label rfl rfl rfl⟩
  | statement head args =>
    unfold item at h ⊢
    simp only at h ⊢
    cases hnode : Statement.node arch s.parent head args with
    | error d =>
      rw [hnode] at h
      exact absurd h (errors_report_ne_nil s d)
    | ok n =>
      rw [hnode] at h
      refine ⟨h, List.prefix_rfl, n, rfl, ?_⟩
      obtain ⟨e, helement, rfl⟩ := exists_of_map_eq_ok hnode
      exact ⟨rfl, Statement.kind_of_element helement⟩

/-- Items that are not rejected give one statement each, in order. -/
theorem foldl_item_of_quiet {its : List SourceItem} (h : (its.foldl (item arch) s).errors = []) :
    s.errors = [] ∧ s.labels.labels <+: (its.foldl (item arch) s).labels.labels ∧
      ∃ ns, (its.foldl (item arch) s).nodes = s.nodes ++ ns ∧
        List.Forall₂ (SourceItem.Gives arch (its.foldl (item arch) s).labels) its ns := by
  induction its generalizing s with
  | nil => exact ⟨h, List.prefix_rfl, [], (List.append_nil _).symm, .nil⟩
  | cons it rest ih =>
    obtain ⟨hfirst, hgrows, ns, hns, hgives⟩ := ih h
    obtain ⟨hs, hlabels, n, hn, hgive⟩ := item_of_quiet hfirst
    refine ⟨hs, hlabels.trans hgrows, n :: ns, ?_, .cons (hgive.mono hgrows) hgives⟩
    rw [List.foldl_cons, hns, hn, List.append_assoc]
    rfl

/-- Lines without errors are read to the end of the file. -/
theorem lines_of_quiet {ls : List Line} (h : (lines arch {} ls).errors = []) :
    List.Forall₂ (SourceItem.Gives arch (lines arch {} ls).labels) (ls.flatMap SourceItem.ofLine)
      (lines arch {} ls).nodes := by
  have hopen : (lines arch {} ls).isDone = false := by simp [isDone, h, errorLimit]
  rw [lines_eq_foldl arch hopen] at h ⊢
  obtain ⟨-, -, ns, hns, hgives⟩ := foldl_item_of_quiet h
  rw [hns]
  exact hgives

end Parse

/-! ## Sections -/

/-- A section that begins with the directive that opens it, and holds no other one. -/
def Section.IsOpened (s : Section) : Prop :=
  ∃ n rest, s.nodes = n :: rest ∧ n.element.opened? = some s.kind ∧ ∀ m ∈ rest, m.element.opened? = none

/-- The text in front of the first section directive. -/
def Section.IsLeading (s : Section) : Prop := s.kind = .text ∧ ∀ n ∈ s.nodes, n.element.opened? = none

/-- Only statements that it allows stand in a section. -/
def Section.IsAllowed (s : Section) : Prop := ∀ n ∈ s.nodes, s.kind.allows n.kind

/-- Sections as directives open them: each begins with its directive, up to text in front of the first. -/
structure Sectioned (secs : List Section) : Prop where
  head : ∀ s ∈ secs.head?, s.IsLeading ∨ s.IsOpened
  tail : ∀ s ∈ secs.tail, s.IsOpened
  allowed : ∀ s ∈ secs, s.IsAllowed

namespace Parse

/-- Where nothing is rejected, all statements are in sections, in order. -/
theorem bundle_of_quiet {kind : SectionKind} {ns : List Node} (h : (bundle kind ns).2.2 = []) :
    (bundle kind ns).1 ++ (bundle kind ns).2.1.flatMap Section.nodes = ns ∧
      (∀ n ∈ (bundle kind ns).1, n.element.opened? = none ∧ kind.allows n.kind) ∧
      ∀ s ∈ (bundle kind ns).2.1, s.IsOpened ∧ s.IsAllowed := by
  induction ns generalizing kind with
  | nil => simp [bundle]
  | cons n rest ih =>
    unfold bundle at h ⊢
    split at h
    next next hn =>
      -- A directive ends the section in front of it and begins its own.
      obtain ⟨hall, hfirst, hmore⟩ := ih h
      simp only
      refine ⟨by rw [List.nil_append, List.flatMap_cons, List.cons_append, hall], by simp, ?_⟩
      intro s hs
      rcases List.mem_cons.1 hs with rfl | hs
      · refine ⟨⟨n, _, rfl, by rw [hn]; rfl, fun m hm => (hfirst m hm).1⟩, fun m hm => ?_⟩
        rcases List.mem_cons.1 hm with rfl | hm
        · rw [Node.kind, hn]
          rfl
        · exact (hfirst m hm).2
      · exact hmore s hs
    next hother =>
      simp only at h ⊢
      split_ifs at h ⊢ with hallows
      obtain ⟨hall, hfirst, hmore⟩ := ih h
      have hnone : n.element.opened? = none := by
        cases helement : n.element with
        | sectionStart next => exact absurd helement (hother next)
        | _ => rfl
      refine ⟨by rw [List.cons_append, hall], fun m hm => ?_, hmore⟩
      rcases List.mem_cons.1 hm with rfl | hm
      · exact ⟨hnone, hallows⟩
      · exact hfirst m hm

theorem sections_of_quiet {ns : List Node} (h : (sections ns).2 = []) :
    (sections ns).1.flatMap Section.nodes = ns ∧ Sectioned (sections ns).1 := by
  have hquiet : (bundle .text ns).2.2 = [] := h
  obtain ⟨hall, hfirst, hmore⟩ := bundle_of_quiet hquiet
  refine ⟨(sections_eq ns).trans hall, ?_⟩
  unfold sections
  simp only
  split_ifs
  · refine ⟨fun s hs => .inr (hmore s ?_).1, fun s hs => (hmore s (List.mem_of_mem_tail hs)).1,
      fun s hs => (hmore s hs).2⟩
    exact List.mem_of_mem_head? hs
  · refine ⟨?_, fun s hs => (hmore s hs).1, fun s hs => ?_⟩
    · rintro s ⟨⟩
      exact .inl ⟨rfl, fun n hn => (hfirst n hn).1⟩
    · rcases List.mem_cons.1 hs with rfl | hs
      · exact fun n hn => (hfirst n hn).2
      · exact (hmore s hs).2

end Parse

/-! ## Linking -/

/-- What linking keeps of a statement. -/
def Node.outline (n : Node) : List Token × NodeKind × Option LabelId × Option SectionKind :=
  (n.tokens, n.kind, n.declared?, n.element.opened?)

/-- What linking keeps of a section. -/
def Section.outline (s : Section) :
    SectionKind × List (List Token × NodeKind × Option LabelId × Option SectionKind) :=
  (s.kind, s.nodes.map Node.outline)

namespace Section

variable {σ : Type} {step : σ → Node → σ × Option Node} {P : σ → Prop}
  (hstep : ∀ s n, P (step s n).1 → P s ∧ (step s n).2.map Node.outline = some n.outline)

include hstep

/-- Steps that leave nothing out in a good state leave nothing out on the way to one. -/
theorem outline_rebuild_nodes {s : σ} {ns : List Node} (h : P (rebuild.nodes step s ns).1) :
    P s ∧ (rebuild.nodes step s ns).2.map Node.outline = ns.map Node.outline := by
  induction ns generalizing s with
  | nil => exact ⟨h, rfl⟩
  | cons n rest ih =>
    rw [rebuild_nodes_cons] at h ⊢
    obtain ⟨hmid, hrest⟩ := ih h
    obtain ⟨hs, hn⟩ := hstep s n hmid
    obtain ⟨k, hk, hkn⟩ := Option.map_eq_some_iff.1 hn
    refine ⟨hs, ?_⟩
    rw [hk, Option.toList_some, List.map_append, hrest, List.map_singleton, hkn]
    rfl

theorem outline_rebuild {s : σ} {secs : List Section} (h : P (rebuild step s secs).1) :
    P s ∧ (rebuild step s secs).2.map Section.outline = secs.map Section.outline := by
  induction secs generalizing s with
  | nil => exact ⟨h, rfl⟩
  | cons sec rest ih =>
    obtain ⟨hmid, hrest⟩ := ih h
    obtain ⟨hs, hnodes⟩ := outline_rebuild_nodes hstep hmid
    refine ⟨hs, ?_⟩
    show (sec.kind, (rebuild.nodes step s sec.nodes).2.map Node.outline) :: _ = _
    rw [hnodes, hrest]
    rfl

end Section

namespace Link

/-- A declaration is removed with an error. -/
theorem outline_dropDuplicate {s : Duplicates} {n : Node}
    (h : ∀ d ∈ (dropDuplicate s n).1.diagnostics, d.isError = false) :
    (∀ d ∈ s.diagnostics, d.isError = false) ∧ (dropDuplicate s n).2.map Node.outline = some n.outline := by
  rcases dropDuplicate_cases s n with ⟨hkept, hsame⟩ | ⟨-, hmore⟩
  · rw [hkept]
    exact ⟨hsame ▸ h, rfl⟩
  · rw [hmore] at h
    have herror := h _ (List.mem_append_right _ (List.mem_singleton_self _))
    cases herror

/-- So is an export. -/
theorem outline_resolve {arch : Architecture} {s : References} {n : Node}
    (h : ∀ d ∈ (resolve arch s n).1.diagnostics, d.isError = false) :
    (∀ d ∈ s.diagnostics, d.isError = false) ∧
      (resolve arch s n).2.map Node.outline = some n.outline := by
  refine ⟨fun d hd => h d (diagnostics_resolve s n hd), ?_⟩
  cases hk : (resolve arch s n).2 with
  | none =>
    cases helement : n.element with
    | global found name =>
      cases hid : s.labels.resolve? arch.dialect none name.token.text with
      | none =>
        have herror := h (.error .globalMissing n.tokens) (by simp [resolve, helement, hid])
        cases herror
      | some id => simp [resolve, helement, hid] at hk
    | _ => simp [resolve, helement] at hk
  | some k =>
    obtain ⟨htokens, hkind⟩ := tokens_kind_resolve hk
    have hdeclared := (address_resolve arch s n k hk).2
    have hopened : k.element.opened? = n.element.opened? := by
      rcases resolve_cases hk with ⟨found, name, id, hn, -, rfl⟩ | ⟨-, rfl⟩
      · rw [hn]
        rfl
      · cases helement : n.element <;> rfl
    rw [Option.map_some, Node.outline, htokens, hkind, hdeclared, hopened]
    rfl

end Link

namespace Tree

variable {arch : Architecture} {t : Tree}

theorem outline_nodes (t : Tree) :
    t.nodes.map Node.outline = (t.sections.map Section.outline).flatMap Prod.snd := by
  rw [nodes, List.map_flatMap, List.flatMap_map]
  rfl

/-- Linking without errors keeps the sections and what stands in them. -/
theorem outline_link (h : (t.link arch).errors = []) :
    (t.link arch).sections.map Section.outline = t.sections.map Section.outline := by
  have hquiet : ∀ d ∈ (t.link arch).diagnostics, d.isError = false := by
    intro d hd
    exact Bool.eq_false_of_not_eq_true (List.filter_eq_nil_iff.1 h d hd)
  -- Names are resolved in what is left without duplicates; neither step drops a statement without an error.
  obtain ⟨-, hresolved⟩ := Section.outline_rebuild
    (P := fun s : Link.References => ∀ d ∈ s.diagnostics, d.isError = false)
    (fun _ _ => Link.outline_resolve)
    (fun d hd => hquiet d (List.mem_append_right _ (List.mem_append_right _ hd)))
  obtain ⟨-, hkept⟩ := Section.outline_rebuild
    (P := fun s : Link.Duplicates => ∀ d ∈ s.diagnostics, d.isError = false)
    (fun _ _ => Link.outline_dropDuplicate)
    (fun d hd => hquiet d (List.mem_append_right _ (List.mem_append_left _ hd)))
  exact hresolved.trans hkept

/-- Linking without errors changes nothing of the labels but what is exported. -/
theorem map_labels_link {α : Type} (g : Label → α) (hg : ∀ l : Label, g { l with global := true } = g l)
    (h : (t.link arch).errors = []) : (t.link arch).labels.labels.map g = t.labels.labels.map g := by
  rw [labels_link, map_resolved g hg, (deduplicated_of_errors h).2]

end Tree

theorem SourceItem.Gives.congr {arch : Architecture} {labels labels' : LabelTable} {it : SourceItem}
    {n k : Node} (h : it.Gives arch labels n) (houtline : k.outline = n.outline)
    (hlabels : labels'.labels.map (fun l => (l.token, l.name, l.dropped)) =
      labels.labels.map fun l => (l.token, l.name, l.dropped)) : it.Gives arch labels' k := by
  simp only [Node.outline, Prod.mk.injEq] at houtline
  obtain ⟨htokens, hkind, hdeclared, hopened⟩ := houtline
  cases it with
  | label name colon =>
    obtain ⟨hname, id, l, hid, hl, hrest⟩ := h
    have hget := congrArg (·[id]?) hlabels
    simp only [List.getElem?_map, show labels.labels[id]? = some l from hl, Option.map_some] at hget
    obtain ⟨l', hl', hsame⟩ := Option.map_eq_some_iff.1 hget
    simp only [Prod.mk.injEq] at hsame
    obtain ⟨htoken, hlabelName, hdropped⟩ := hsame
    exact ⟨htokens.trans hname, id, l', hdeclared.trans hid, hl', htoken.trans hrest.1,
      hlabelName.trans hrest.2.1, hdropped.trans hrest.2.2⟩
  | statement head args => exact ⟨htokens.trans h.1, hkind.trans h.2.1, hopened.trans h.2.2⟩

/-- Statements that agree in what linking keeps are given by the same items. -/
theorem SourceItem.forall₂_gives_congr {arch : Architecture} {labels labels' : LabelTable}
    {its : List SourceItem} {ns ks : List Node} (h : List.Forall₂ (Gives arch labels) its ns)
    (houtline : ks.map Node.outline = ns.map Node.outline)
    (hlabels : labels'.labels.map (fun l => (l.token, l.name, l.dropped)) =
      labels.labels.map fun l => (l.token, l.name, l.dropped)) :
    List.Forall₂ (Gives arch labels') its ks := by
  induction h generalizing ks with
  | nil =>
    rw [List.map_eq_nil_iff.1 houtline]
    exact .nil
  | cons hgive _ ih =>
    obtain ⟨k, rest, rfl, hk, hrest⟩ := List.map_eq_cons_iff.1 houtline
    exact .cons (hgive.congr hk hlabels) (ih hrest)

section Congruence

variable {s s' : Section}

theorem exists_of_outline {ns ms : List Node} (h : ms.map Node.outline = ns.map Node.outline) {m : Node}
    (hm : m ∈ ms) : ∃ n ∈ ns, n.kind = m.kind ∧ n.element.opened? = m.element.opened? := by
  have hmem : m.outline ∈ ns.map Node.outline := h ▸ List.mem_map_of_mem hm
  obtain ⟨n, hn, heq⟩ := List.mem_map.1 hmem
  simp only [Node.outline, Prod.mk.injEq] at heq
  exact ⟨n, hn, heq.2.1, heq.2.2.2⟩

theorem Section.IsLeading.congr (h : s.IsLeading) (heq : s'.outline = s.outline) : s'.IsLeading := by
  obtain ⟨hkind, hnodes⟩ := Prod.mk.inj heq
  refine ⟨hkind.trans h.1, fun m hm => ?_⟩
  obtain ⟨n, hn, -, hopened⟩ := exists_of_outline hnodes hm
  rw [← hopened]
  exact h.2 n hn

theorem Section.IsOpened.congr (h : s.IsOpened) (heq : s'.outline = s.outline) : s'.IsOpened := by
  obtain ⟨hkind, hnodes⟩ := Prod.mk.inj heq
  obtain ⟨n, rest, hcons, hopened, hnone⟩ := h
  rw [hcons, List.map_cons] at hnodes
  obtain ⟨n', rest', hcons', hhead, hrest⟩ := List.map_eq_cons_iff.1 hnodes
  simp only [Node.outline, Prod.mk.injEq] at hhead
  refine ⟨n', rest', hcons', by rw [hhead.2.2.2, hopened, hkind], fun m hm => ?_⟩
  obtain ⟨k, hk, -, hsame⟩ := exists_of_outline hrest hm
  rw [← hsame]
  exact hnone k hk

theorem Section.IsAllowed.congr (h : s.IsAllowed) (heq : s'.outline = s.outline) : s'.IsAllowed := by
  obtain ⟨hkind, hnodes⟩ := Prod.mk.inj heq
  intro m hm
  obtain ⟨n, hn, hsame, -⟩ := exists_of_outline hnodes hm
  rw [hkind, ← hsame]
  exact h n hn

/-- Sections that agree in what linking keeps are opened alike. -/
theorem Sectioned.congr {secs secs' : List Section} (h : Sectioned secs)
    (houtline : secs'.map Section.outline = secs.map Section.outline) : Sectioned secs' := by
  refine ⟨fun s' hs' => ?_, fun s' hs' => ?_, fun s' hs' => ?_⟩
  · have hhead := congrArg List.head? houtline
    rw [List.head?_map, List.head?_map, show secs'.head? = some s' from hs', Option.map_some] at hhead
    obtain ⟨s, hs, heq⟩ := Option.map_eq_some_iff.1 hhead.symm
    exact (h.head s hs).imp (·.congr heq.symm) (·.congr heq.symm)
  · have htail := congrArg List.tail houtline
    rw [← List.map_tail, ← List.map_tail] at htail
    obtain ⟨s, hs, heq⟩ := List.mem_map.1 (htail ▸ List.mem_map_of_mem hs')
    exact (h.tail s hs).congr heq.symm
  · obtain ⟨s, hs, heq⟩ := List.mem_map.1 (houtline ▸ List.mem_map_of_mem hs')
    exact (h.allowed s hs).congr heq.symm

end Congruence

/-! ## Whole files -/

/-- A tree that holds all statements of a file. -/
structure Tree.IsComplete (arch : Architecture) (tokens : List Token) (t : Tree) : Prop where
  /-- There is one statement for each item of each line, in order. -/
  statements : ∃ items, List.Forall₂ (fun l => LineItems (Token.trimRight l.tokens)) (Line.ofTokens tokens) items ∧
    List.Forall₂ (SourceItem.Gives arch t.labels) items.flatten t.nodes
  /-- Each statement stands in the section that the last directive in front of it opened. -/
  sections : Sectioned t.sections

/-- The tree of a file that imports nothing and has no errors is complete. -/
theorem Tree.parse_isComplete (arch : Architecture) (r : Preprocessed) (himports : r.output.imports = [])
    (herrors : (parse arch r).errors = []) : (parse arch r).IsComplete arch r.output.tokens := by
  have hparse : parse arch r = (own arch r).link arch := by
    rw [parse, ofPreprocessed_eq, himports]
    rfl
  rw [hparse] at herrors ⊢
  -- Every error of the lines and of the sections is among those of the tree.
  have hquiet : ∀ d ∈ (own arch r).diagnostics, ¬ d.IsRejection := by
    intro d hd hrejected
    have hmem : d ∈ ((own arch r).link arch).errors :=
      List.mem_filter.2 ⟨by rw [diagnostics_link]; exact List.mem_append_left _ hd, hrejected.1⟩
    rw [herrors] at hmem
    cases hmem
  have hlines : (Parse.lines arch {} (Line.ofTokens r.output.tokens)).errors = [] := by
    refine List.eq_nil_iff_forall_not_mem.2 fun d hd => hquiet d ?_ (Parse.isRejection_lines arch (by simp) _ d hd)
    exact List.mem_append_left _ (List.mem_append_right _ hd)
  have hsections : (Parse.sections (Parse.lines arch {} (Line.ofTokens r.output.tokens)).nodes).2 = [] := by
    refine List.eq_nil_iff_forall_not_mem.2 fun d hd => hquiet d ?_ (Parse.isRejection_of_mem_bundle d hd)
    exact List.mem_append_right _ hd
  obtain ⟨hall, hsectioned⟩ := Parse.sections_of_quiet hsections
  have hgives := Parse.lines_of_quiet hlines
  have houtline := outline_link herrors
  refine ⟨⟨(Line.ofTokens r.output.tokens).map SourceItem.ofLine, ?_, ?_⟩, hsectioned.congr houtline⟩
  · rw [List.forall₂_map_right_iff]
    exact List.forall₂_same.2 fun l _ => lineItems_splitLabels (Token.trimRight l.tokens)
  · rw [← List.flatMap_def]
    refine SourceItem.forall₂_gives_congr hgives ?_ (map_labels_link _ (fun _ => rfl) herrors)
    rw [outline_nodes, houtline, ← outline_nodes]
    exact congrArg (List.map Node.outline) hall

namespace Mos6502

/-- Labels on one line and on lines of their own, directives, and statements in three sections. -/
def sectionsSource : Text :=
  "main: .b: LDA #1\n  .global main\n\n* = $0300\n.data\nc:\n .byte 1, 2\n.bss\nd: .byte\n.org $0400\n"

theorem parse_isComplete_sections :
    let r := (Assembler.ofArchitecture architecture).preprocessed "sections" sectionsSource
    (r.output.imports = [] ∧ (Tree.parse architecture r).errors = []) ∧
      (Tree.parse architecture r).sections.map (fun s => (s.kind, s.nodes.map Node.kind)) =
        [(.text, [.label, .label, .instruction, .global, .setPc]),
          (.data, [.sectionStart, .label, .initializedData]),
          (.bss, [.sectionStart, .label, .uninitializedData, .setPc])] ∧
      (Tree.parse architecture r).IsComplete architecture r.output.tokens := by
  intro r
  have hcheck : (r.output.imports = [] ∧ (Tree.parse architecture r).errors = []) ∧
      (Tree.parse architecture r).sections.map (fun s => (s.kind, s.nodes.map Node.kind)) =
        [(.text, [.label, .label, .instruction, .global, .setPc]),
          (.data, [.sectionStart, .label, .initializedData]),
          (.bss, [.sectionStart, .label, .uninitializedData, .setPc])] := by
    decide +kernel
  exact ⟨hcheck.1, hcheck.2, Tree.parse_isComplete architecture r hcheck.1.1 hcheck.1.2⟩

end Mos6502

end EightBit
