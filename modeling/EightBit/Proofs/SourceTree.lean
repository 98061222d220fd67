import Mathlib
import EightBit.Assembly.Assembler
import EightBit.Proofs.Failure
import EightBit.Proofs.Preprocess

/-!
# Trees of source texts

What holds of every tree that comes from a source text: its statements and labels have no address yet,
and its declarations name distinct labels of its table. Imported trees are grafted with fresh numbers and
lose their addresses, so both hold whatever is imported, as long as the imports come from source texts
too.

* `Tree.Unplaced`: nothing has an address.
* `Tree.Declares`: distinct declarations of labels in the table.
* `Parse.lines_induction`: what each label and each statement keeps, the lines of a file keep.
* `Assembler.unplaced_parse`, `Assembler.declares_parse`: both hold after parsing.
-/

namespace EightBit

/-- The label that a statement declares. -/
def Node.declared? (n : Node) : Option LabelId :=
  match n.element with
  | .label id => some id
  | _ => none

/-- The section that an element opens. -/
def Element.opened? : Element → Option SectionKind
  | sectionStart kind => some kind
  | _ => none

/-- The labels that some statements declare, in order. -/
def declared (nodes : List Node) : List LabelId := nodes.filterMap Node.declared?

@[simp] theorem declared_nil : declared [] = [] := rfl

@[simp] theorem declared_append (ns ms : List Node) : declared (ns ++ ms) = declared ns ++ declared ms := by
  simp [declared]

theorem Element.operands_mapOperands (f : Operand → Operand) (e : Element) :
    (e.mapOperands f).operands = e.operands.map f := by
  cases e <;> simp [operands, mapOperands, Option.toList_map]

theorem Element.mapOperands_eq_self {f : Operand → Operand} {e : Element} (h : ∀ op ∈ e.operands, f op = op) :
    e.mapOperands f = e := by
  cases e with
  | instruction mnemonic mode operand =>
    cases operand with
    | none => rfl
    | some op => simp [mapOperands, h op (by simp [operands])]
  | data directive values =>
    have hvalues : ∀ op ∈ values, f op = id op := h
    rw [mapOperands, List.map_congr_left hvalues, List.map_id]
  | global found name => simp [mapOperands, h name (by simp [operands])]
  | _ => rfl

theorem declared_cons (n : Node) (rest : List Node) :
    declared (n :: rest) = n.declared?.toList ++ declared rest := by
  cases h : n.declared? <;> simp [declared, h]

/-- No statement and no label of a tree has an address. -/
structure Tree.Unplaced (t : Tree) : Prop where
  /-- Statements have no address. -/
  nodes : ∀ n ∈ t.nodes, n.address = none
  /-- Labels have no address. -/
  labels : ∀ l ∈ t.labels.labels, l.address = none

/-- The declarations of a tree name distinct labels of its table. -/
structure Tree.Declares (t : Tree) : Prop where
  /-- No label is declared twice. -/
  nodup : (declared t.nodes).Nodup
  /-- Every declared label is in the table. -/
  inTable : ∀ id ∈ declared t.nodes, id < t.labels.size

/-! ## Parsing lines -/

namespace Statement

theorem ofPattern_eq_ok {p : Pattern} {place : Nat} {cause : Cause} {line : List Token}
    {make : Token → Element} {e : Element} (h : ofPattern p place cause line make = .ok e) :
    ∃ t, e = make t := by
  unfold ofPattern at h
  split at h
  next t _ => exact ⟨t, by cases h; rfl⟩
  next => cases h

/-- The kind that the form of a statement dictates: by its first token, and for data by whether values
follow. -/
def form (arch : Architecture) (head : Token) (args : List Token) : NodeKind :=
  if head.isSymbol "*" then .setPc
  else if (SectionKind.ofDirective? head.text).isSome then .sectionStart
  else if head.is ".global" || head.is ".globl" then .global
  else if head.is ".org" then .setPc
  else if (arch.directive? head.text).isSome then
    if Token.isBlank args then .uninitializedData else .initializedData
  else .instruction

/-- Labels are declared in front of a statement, never by it. -/
theorem form_ne_label (arch : Architecture) (head : Token) (args : List Token) :
    form arch head args ≠ .label := by
  unfold form
  split_ifs <;> decide

theorem kind_of_data {directive : DataDirective} {line args : List Token} {e : Element}
    (h : data directive line args = .ok e) :
    e.kind = (if Token.isBlank args then .uninitializedData else .initializedData) ∧ e.opened? = none := by
  unfold data at h
  split_ifs at h ⊢
  · cases h
    exact ⟨rfl, rfl⟩
  · obtain ⟨vs, -, rfl⟩ := exists_of_map_eq_ok h
    exact ⟨rfl, rfl⟩

/-- A statement is what its form dictates, and it opens the section that its first token names. -/
theorem kind_of_element {arch : Architecture} {head : Token} {args : List Token} {e : Element}
    (h : element arch head args = .ok e) :
    e.kind = form arch head args ∧ e.opened? = SectionKind.ofDirective? head.text := by
  unfold element at h
  unfold form
  by_cases hstar : head.isSymbol "*" = true
  · rw [if_pos hstar] at h ⊢
    obtain ⟨t, rfl⟩ := ofPattern_eq_ok h
    obtain ⟨-, htext⟩ : head.kind = .symbol ∧ head.text = "*" := by simpa [Token.isSymbol] using hstar
    have hnone : SectionKind.ofDirective? "*" = none := by decide
    exact ⟨rfl, htext ▸ hnone.symm⟩
  rw [if_neg hstar] at h ⊢
  split_ifs at h
  -- In order: sections, globals, placement, data, unknown directives and instructions.
  unfold ofWord at h
  simp only at h
  cases hsection : SectionKind.ofDirective? head.text with
  | some kind =>
    simp only [hsection] at h
    split_ifs at h
    cases h
    exact ⟨rfl, rfl⟩
  | none =>
    simp only [hsection, Option.isSome_none, Bool.false_eq_true, if_false] at h ⊢
    by_cases hglobal : (head.is ".global" || head.is ".globl") = true
    · rw [if_pos hglobal] at h ⊢
      obtain ⟨t, rfl⟩ := ofPattern_eq_ok h
      exact ⟨rfl, rfl⟩
    rw [if_neg hglobal] at h ⊢
    by_cases horg : head.is ".org" = true
    · rw [if_pos horg] at h ⊢
      obtain ⟨t, rfl⟩ := ofPattern_eq_ok h
      exact ⟨rfl, rfl⟩
    rw [if_neg horg] at h ⊢
    cases hdirective : arch.directive? head.text with
    | some directive =>
      simp only [hdirective] at h
      exact kind_of_data h
    | none =>
      simp only [hdirective] at h
      split_ifs at h
      split at h
      · cases h
        exact ⟨rfl, rfl⟩
      · cases h

end Statement

namespace Parse

/-- A report changes nothing but the errors. -/
theorem exists_report_eq (s : Parse) (d : Diagnostic) : ∃ errors, s.report d = { s with errors } := by
  unfold report
  split_ifs
  · exact ⟨s.errors, rfl⟩
  · exact ⟨_, rfl⟩
  · exact ⟨_, rfl⟩

/-- What a label or a statement of a file does: it is refused, it declares a label, or it is added. -/
inductive Step (arch : Architecture) (s : Parse) : Parse → Prop
  | orphan (tokens : List Token) : Step arch s (s.report (.error .subLabelOrphan tokens))
  | refused {head : Token} {args : List Token} {d : Diagnostic}
    (hnode : Statement.node arch s.parent head args = .error d) : Step arch s (s.report d)
  | subLabel {name colon : Token} {p : LabelId} (hsub : arch.dialect.isSubLabel name.text)
    (hparent : s.parent = some p) :
    Step arch s ({ s with labels := s.labels.add { name := name.text, parent := some p, token := name } }.add
      { tokens := [name, colon], element := .label s.labels.size })
  | topLabel (name colon : Token) :
    Step arch s ({ s with
      labels := s.labels.add { name := name.text, token := name }
      parent := some s.labels.size }.add { tokens := [name, colon], element := .label s.labels.size })
  | statement {head : Token} {args : List Token} {n : Node}
    (hnode : Statement.node arch s.parent head args = .ok n) : Step arch s (s.add n)

theorem step_label (arch : Architecture) (s : Parse) (decl : Token × Token) :
    Step arch s (label arch.dialect s decl) := by
  unfold label
  simp only
  split_ifs with hsub
  · split
    next => exact .orphan _
    next parent hparent => exact .subLabel hsub hparent
  · exact .topLabel decl.1 decl.2

/-- What every step keeps, the lines of a file keep. -/
theorem lines_induction {arch : Architecture} {P : Parse → Prop} (hstep : ∀ {s s'}, P s → Step arch s s' → P s')
    {s : Parse} (hs : P s) (ls : List Line) : P (lines arch s ls) := by
  have hline : ∀ {s : Parse} (tokens : List Token), P s → P (s.line arch tokens) := by
    intro s tokens hs
    -- The labels of a line come before its statement.
    have hlabels : P ((Statement.splitLabels (Token.trimRight tokens)).1.foldl (label arch.dialect) s) :=
      List.foldlRecOn _ _ hs fun _ hs decl _ => hstep hs (step_label arch _ decl)
    unfold line
    simp only
    split
    · exact hlabels
    · split
      next hnode => exact hstep hlabels (.statement hnode)
      next hnode => exact hstep hlabels (.refused hnode)
  induction ls generalizing s with
  | nil => exact hs
  | cons l rest ih =>
    unfold lines
    split_ifs
    · exact hs
    · exact ih (hline l.tokens hs)

/-- What holds while lines are parsed: nothing is placed, and the labels are declared in the order of the
table. -/
structure Fresh (s : Parse) : Prop where
  /-- Statements have no address. -/
  nodes : ∀ n ∈ s.nodes, n.address = none
  /-- Labels have no address. -/
  labels : ∀ l ∈ s.labels.labels, l.address = none
  /-- The labels are declared in the order of the table. -/
  declares : declared s.nodes = List.range s.labels.size

theorem Fresh.report {s : Parse} (h : s.Fresh) (d : Diagnostic) : (s.report d).Fresh := by
  obtain ⟨errors, heq⟩ := exists_report_eq s d
  rw [heq]
  exact ⟨h.nodes, h.labels, h.declares⟩

/-- A statement that declares no label and has no address may be added. -/
theorem Fresh.add {s : Parse} (h : s.Fresh) {n : Node} (haddr : n.address = none)
    (hdecl : n.declared? = none) : (s.add n).Fresh := by
  refine ⟨?_, h.labels, ?_⟩
  · intro m hm
    rcases List.mem_append.1 hm with hm | hm
    · exact h.nodes m hm
    · rw [List.mem_singleton.1 hm, haddr]
  · simp [Parse.add, declared, hdecl, ← h.declares]

/-- A declaration may be added together with its label. -/
theorem Fresh.declare {s : Parse} (h : s.Fresh) {l : Label} (hl : l.address = none)
    (tokens : List Token) (parent : Option LabelId) :
    ({ s with labels := s.labels.add l, parent }.add
      { tokens, element := .label s.labels.size }).Fresh := by
  refine ⟨?_, ?_, ?_⟩
  · intro m hm
    rcases List.mem_append.1 hm with hm | hm
    · exact h.nodes m hm
    · rw [List.mem_singleton.1 hm]
  · intro k hk
    rcases List.mem_append.1 hk with hk | hk
    · exact h.labels k hk
    · rw [List.mem_singleton.1 hk, hl]
  · have hsize : (s.labels.add l).size = s.labels.size + 1 := by
      simp [LabelTable.add, LabelTable.size]
    simp only [Parse.add, declared_append, hsize, List.range_succ, h.declares]
    rfl

/-- A statement of a line has no address and declares no label. -/
theorem node_fresh {arch : Architecture} {parent : Option LabelId} {head : Token} {args : List Token}
    {n : Node} (hn : Statement.node arch parent head args = .ok n) :
    n.address = none ∧ n.declared? = none := by
  obtain ⟨e, he, rfl⟩ := exists_of_map_eq_ok hn
  refine ⟨rfl, ?_⟩
  have hkind := (Statement.kind_of_element he).1
  cases e with
  | label id => exact absurd hkind.symm (Statement.form_ne_label arch head args)
  | _ => rfl

theorem Fresh.step {arch : Architecture} {s s' : Parse} (h : s.Fresh) (hs : Step arch s s') : s'.Fresh := by
  cases hs with
  | orphan | refused => exact h.report _
  | subLabel => exact h.declare rfl _ s.parent
  | topLabel => exact h.declare rfl _ _
  | statement hnode => exact h.add (node_fresh hnode).1 (node_fresh hnode).2

theorem Fresh.lines {s : Parse} (h : s.Fresh) (arch : Architecture) (ls : List Line) :
    (Parse.lines arch s ls).Fresh := lines_induction Fresh.step h ls

theorem fresh_empty : ({} : Parse).Fresh :=
  ⟨by simp, by simp, rfl⟩

/-! ## Sections -/

/-- Putting statements into sections keeps their order, and leaves some out. -/
theorem bundle_sublist (kind : SectionKind) (nodes : List Node) :
    ((bundle kind nodes).1 ++ (bundle kind nodes).2.1.flatMap Section.nodes).Sublist nodes := by
  induction nodes generalizing kind with
  | nil => simp [bundle]
  | cons n rest ih =>
    unfold bundle
    split
    next next hn => simpa using (ih next).cons_cons n
    next =>
      simp only
      split_ifs
      · simpa using (ih kind).cons_cons n
      · exact (ih kind).cons n

/-- No declaration is left out of its section. -/
theorem declared_bundle (kind : SectionKind) (nodes : List Node) :
    declared ((bundle kind nodes).1 ++ (bundle kind nodes).2.1.flatMap Section.nodes) =
      declared nodes := by
  induction nodes generalizing kind with
  | nil => rfl
  | cons n rest ih =>
    unfold bundle
    split
    next next hn =>
      rw [declared_cons, ← ih next]
      simp [declared, Node.declared?, hn]
    next =>
      simp only
      split_ifs with hallows
      · rw [List.cons_append, declared_cons, declared_cons, ih kind]
      · -- A statement that its section does not allow is left out; every section allows labels.
        have hnone : n.declared? = none := by
          unfold Node.declared?
          split
          next hlabel => simp [Node.kind, hlabel, Element.kind, SectionKind.allows] at hallows
          next => rfl
        rw [declared_cons, hnone, ih kind]
        rfl

theorem sections_eq (nodes : List Node) :
    (sections nodes).1.flatMap Section.nodes =
      (bundle .text nodes).1 ++ (bundle .text nodes).2.1.flatMap Section.nodes := by
  unfold sections
  simp only
  split_ifs with hempty
  · simp [List.isEmpty_iff.1 hempty]
  · simp

end Parse

/-! ## Grafting -/

namespace Tree

theorem nodes_graft (t other : Tree) :
    (t.graft other).nodes = t.nodes ++ other.nodes.map (Node.renumber (· + t.labels.size)) := by
  simp [graft, nodes, List.flatMap_map, List.map_flatMap]

theorem declared?_renumber (f : LabelId → LabelId) (n : Node) :
    (n.renumber f).declared? = n.declared?.map f := by
  obtain ⟨tokens, element, scope, address⟩ := n
  cases element <;> rfl

/-- A grafted tree declares its labels after those of the tree that it is grafted onto. -/
theorem declared_graft (t other : Tree) :
    declared (t.graft other).nodes =
      declared t.nodes ++ (declared other.nodes).map (· + t.labels.size) := by
  rw [nodes_graft, declared_append]
  congr 1
  simp only [declared, List.filterMap_map, List.map_filterMap]
  congr 1
  funext n
  exact declared?_renumber _ n

theorem size_labels_graft (t other : Tree) :
    (t.graft other).labels.size = t.labels.size + other.labels.size := by
  simp [graft, LabelTable.size]

theorem Unplaced.graft {t : Tree} (h : t.Unplaced) (other : Tree) : (t.graft other).Unplaced := by
  constructor
  · intro n hn
    rw [nodes_graft] at hn
    rcases List.mem_append.1 hn with hn | hn
    · exact h.nodes n hn
    · obtain ⟨m, _, rfl⟩ := List.mem_map.1 hn
      rfl
  · intro l hl
    rcases List.mem_append.1 hl with hl | hl
    · exact h.labels l hl
    · obtain ⟨k, _, rfl⟩ := List.mem_map.1 hl
      rfl

theorem Declares.graft {t other : Tree} (h : t.Declares) (hother : other.Declares) :
    (t.graft other).Declares := by
  constructor
  · rw [declared_graft]
    refine List.Nodup.append h.nodup (hother.nodup.map (add_left_injective _)) ?_
    -- The numbers of the grafted labels start where the table ended.
    intro id hid hshifted
    obtain ⟨k, _, rfl⟩ := List.mem_map.1 hshifted
    exact Nat.not_lt.2 (Nat.le_add_left _ _) (h.inTable _ hid)
  · intro id hid
    rw [declared_graft] at hid
    rw [size_labels_graft]
    rcases List.mem_append.1 hid with hid | hid
    · exact Nat.lt_add_right _ (h.inTable id hid)
    · obtain ⟨k, hk, rfl⟩ := List.mem_map.1 hid
      rw [Nat.add_comm t.labels.size]
      exact Nat.add_lt_add_right (hother.inTable k hk) _

end Tree

/-! ## Linking -/

namespace Section

variable {σ : Type} (step : σ → Node → σ × Option Node)

theorem rebuild_nodes_append (s : σ) (ns ms : List Node) :
    rebuild.nodes step s (ns ++ ms) =
      ((rebuild.nodes step (rebuild.nodes step s ns).1 ms).1,
        (rebuild.nodes step s ns).2 ++ (rebuild.nodes step (rebuild.nodes step s ns).1 ms).2) := by
  induction ns generalizing s with
  | nil => rfl
  | cons n rest ih => simp [rebuild.nodes, ih]

/-- Sections are rebuilt as if their nodes stood in one list. -/
theorem rebuild_eq_nodes (s : σ) (secs : List Section) :
    ((rebuild step s secs).1, (rebuild step s secs).2.flatMap Section.nodes) =
      rebuild.nodes step s (secs.flatMap Section.nodes) := by
  induction secs generalizing s with
  | nil => rfl
  | cons sec rest ih =>
    rw [List.flatMap_cons, rebuild_nodes_append, ← ih]
    rfl

variable {step}

/-- What every step keeps of the state holds after all of them. -/
theorem rebuild_nodes_state {P : σ → Prop} (hstep : ∀ s n, P s → P (step s n).1) {s : σ}
    (hs : P s) (ns : List Node) : P (rebuild.nodes step s ns).1 := by
  induction ns generalizing s with
  | nil => exact hs
  | cons n rest ih => exact ih (hstep s n hs)

/-- Every node that is kept comes from a step, in the state that the nodes before it lead to. -/
theorem exists_of_mem_rebuild_nodes {s : σ} {ns : List Node} {k : Node}
    (hk : k ∈ (rebuild.nodes step s ns).2) :
    ∃ before n after, ns = before ++ n :: after ∧ k ∈ (step (rebuild.nodes step s before).1 n).2 := by
  induction ns generalizing s with
  | nil => cases hk
  | cons m rest ih =>
    rcases List.mem_append.1 hk with hk | hk
    · exact ⟨[], m, rest, rfl, Option.mem_toList.1 hk⟩
    · obtain ⟨before, n, after, rfl, hn⟩ := ih hk
      exact ⟨m :: before, n, after, rfl, hn⟩

/-- What every step keeps of a node holds of all nodes that are kept. -/
theorem rebuild_nodes_forall {P : Node → Prop}
    (hstep : ∀ s n, P n → ∀ k ∈ (step s n).2, P k) (s : σ) {ns : List Node} (hns : ∀ n ∈ ns, P n) :
    ∀ n ∈ (rebuild.nodes step s ns).2, P n := by
  intro k hk
  obtain ⟨before, n, after, rfl, hn⟩ := exists_of_mem_rebuild_nodes hk
  exact hstep _ n (hns n (by simp)) k hn

/-- Where steps keep or remove declarations, those that are left are declared in order. -/
theorem declared_rebuild_sublist
    (hstep : ∀ s n, ∀ k ∈ (step s n).2, k.declared? = n.declared?) (s : σ) (ns : List Node) :
    (declared (rebuild.nodes step s ns).2).Sublist (declared ns) := by
  induction ns generalizing s with
  | nil => simp [rebuild.nodes]
  | cons n rest ih =>
    show (declared ((step s n).2.toList ++ _)).Sublist _
    rw [declared_append, declared_cons]
    refine List.Sublist.append ?_ (ih _)
    cases hk : (step s n).2 with
    | none => simp
    | some k => rw [Option.toList_some, declared_cons, hstep s n k (by simp [hk]), declared_nil, List.append_nil]

end Section

namespace LabelTable

/-- What a change keeps of a label it keeps of the whole table. -/
theorem map_modify {α : Type} (g : Label → α) (t : LabelTable) (id : LabelId) {f : Label → Label}
    (hf : ∀ l, g (f l) = g l) : (t.modify id f).labels.map g = t.labels.map g := by
  apply List.ext_getElem?
  intro n
  simp only [modify, List.getElem?_map, List.getElem?_modify]
  cases t.labels[n]? with
  | none => rfl
  | some l => by_cases h : id = n <;> simp [h, hf]

end LabelTable

namespace Link

/-- A statement is kept, under labels that were kept, unless it declares a duplicate, which is reported. -/
theorem dropDuplicate_cases (s : Duplicates) (n : Node) :
    (dropDuplicate s n).2 = some { n with scope := s.current n.scope } ∧
        (dropDuplicate s n).1.diagnostics = s.diagnostics ∨
      (dropDuplicate s n).2 = none ∧
        (dropDuplicate s n).1.diagnostics = s.diagnostics ++ [.error .labelDuplicate n.tokens] := by
  unfold dropDuplicate
  simp only
  split
  · split
    · exact .inl ⟨rfl, rfl⟩
    · split
      · exact .inr ⟨rfl, rfl⟩
      · exact .inl ⟨rfl, rfl⟩
  · exact .inl ⟨rfl, rfl⟩

theorem eq_of_mem_dropDuplicate {s : Duplicates} {n k : Node} (hk : k ∈ (dropDuplicate s n).2) :
    k = { n with scope := s.current n.scope } := by
  rcases dropDuplicate_cases s n with ⟨hkept, -⟩ | ⟨hdropped, -⟩
  · rw [hkept] at hk
    exact (Option.some.inj hk).symm
  · rw [hdropped] at hk
    cases hk

theorem address_dropDuplicate (s : Duplicates) (n k : Node) (hk : k ∈ (dropDuplicate s n).2) :
    k.address = n.address ∧ k.element = n.element := by
  rw [eq_of_mem_dropDuplicate hk]
  exact ⟨rfl, rfl⟩

theorem map_address_dropDuplicate (s : Duplicates) (n : Node) :
    (dropDuplicate s n).1.labels.labels.map Label.address = s.labels.labels.map Label.address := by
  unfold dropDuplicate
  simp only
  split
  · split
    · rfl
    · split
      · refine (LabelTable.map_modify _ _ _ ?_).trans (LabelTable.map_modify _ _ _ ?_)
        · exact fun _ => rfl
        · exact fun _ => rfl
      · exact LabelTable.map_modify _ _ _ (fun _ => rfl)
  · rfl

/-- The operands of all statements but exports are bound, and those without a label are reported. -/
theorem resolve_of_not_global (arch : Architecture) (s : References) {n : Node} (hn : n.kind ≠ .global) :
    resolve arch s n =
      let e := n.element.mapOperands (bind arch.dialect s.labels n.scope)
      ({ s with diagnostics := s.diagnostics ++
          if arch.symbolicData && e.kind == .initializedData then [] else e.operands.filterMap missing? },
        some { n with element := e }) := by
  obtain ⟨tokens, element, scope, address⟩ := n
  cases element with
  | global found name => exact absurd rfl hn
  | instruction mnemonic mode operand => rfl
  | data directive values => rfl
  | _ => simp [resolve, Element.mapOperands, Element.operands]

/-- A statement without words has nothing to resolve. -/
theorem resolve_of_constants (arch : Architecture) (s : References) {n : Node} (hn : n.kind ≠ .global)
    (hops : ∀ op ∈ n.element.operands, op.isWord = false ∧ op.ref = none) :
    resolve arch s n = (s, some n) := by
  have hbind : n.element.mapOperands (bind arch.dialect s.labels n.scope) = n.element := by
    refine Element.mapOperands_eq_self fun op hop => ?_
    obtain ⟨hword, href⟩ := hops op hop
    simp [bind, hword, ← href]
  have hmissing : n.element.operands.filterMap missing? = [] := by
    rw [List.filterMap_eq_nil_iff]
    intro op hop
    simp [missing?, (hops op hop).1]
  rw [resolve_of_not_global arch s hn]
  simp [hbind, hmissing]

/-- A statement that is kept is an export with its label, or a statement with its operands bound. -/
theorem resolve_cases {arch : Architecture} {s : References} {n k : Node} (hk : k ∈ (resolve arch s n).2) :
    (∃ found name id, n.element = .global found name ∧
      s.labels.resolve? arch.dialect none name.token.text = some id ∧
      k = { n with element := .global (some id) { name with ref := some id } }) ∨
    n.kind ≠ .global ∧ k = { n with element := n.element.mapOperands (bind arch.dialect s.labels n.scope) } := by
  by_cases hn : n.kind = .global
  · obtain ⟨found, name, helement⟩ : ∃ found name, n.element = .global found name := by
      cases helement : n.element with
      | global found name => exact ⟨found, name, rfl⟩
      | _ => simp [Node.kind, helement, Element.kind] at hn
    unfold resolve at hk
    simp only [helement] at hk
    split at hk
    · cases hk
    next id hid =>
      cases hk
      exact .inl ⟨found, name, id, helement, hid, rfl⟩
  · rw [resolve_of_not_global arch s hn] at hk
    cases hk
    exact .inr ⟨hn, rfl⟩

theorem address_resolve (arch : Architecture) (s : References) (n k : Node)
    (hk : k ∈ (resolve arch s n).2) : k.address = n.address ∧ k.declared? = n.declared? := by
  rcases resolve_cases hk with ⟨found, name, id, hn, -, rfl⟩ | ⟨-, rfl⟩
  · exact ⟨rfl, by simp [Node.declared?, hn]⟩
  · refine ⟨rfl, ?_⟩
    cases hn : n.element <;> simp [Node.declared?, hn, Element.mapOperands]

/-- The only change to labels is that they are exported. -/
theorem map_resolve {α : Type} (g : Label → α) (hg : ∀ l : Label, g { l with global := true } = g l)
    (arch : Architecture) (s : References) (n : Node) :
    (resolve arch s n).1.labels.labels.map g = s.labels.labels.map g := by
  unfold resolve
  split
  · split
    · rfl
    · exact LabelTable.map_modify _ _ _ hg
  · rfl
  · rfl
  · rfl

end Link

namespace Tree

/-- What is left of a tree's statements without duplicate labels, with what is known about them. -/
def deduplicated (t : Tree) : Link.Duplicates × List Node :=
  Section.rebuild.nodes Link.dropDuplicate { labels := t.labels } t.nodes

/-- The statements of a tree once its references are resolved too. -/
def resolved (arch : Architecture) (t : Tree) : Link.References × List Node :=
  Section.rebuild.nodes (Link.resolve arch) { labels := t.deduplicated.1.labels } t.deduplicated.2

theorem nodes_link (arch : Architecture) (t : Tree) : (t.link arch).nodes = (t.resolved arch).2 := by
  simp only [nodes, resolved, deduplicated, ← Section.rebuild_eq_nodes]
  rfl

theorem labels_link (arch : Architecture) (t : Tree) :
    (t.link arch).labels = (t.resolved arch).1.labels := by
  simp only [nodes, resolved, deduplicated, ← Section.rebuild_eq_nodes]
  rfl

theorem diagnostics_link (arch : Architecture) (t : Tree) :
    (t.link arch).diagnostics =
      t.diagnostics ++ (t.deduplicated.1.diagnostics ++ (t.resolved arch).1.diagnostics) := by
  simp only [nodes, resolved, deduplicated, ← Section.rebuild_eq_nodes]
  rfl

/-- References are resolved in the table that the removal of duplicates leaves, up to exports. -/
theorem map_resolved {α : Type} (g : Label → α) (hg : ∀ l : Label, g { l with global := true } = g l)
    (arch : Architecture) (t : Tree) :
    (t.resolved arch).1.labels.labels.map g = t.deduplicated.1.labels.labels.map g :=
  Section.rebuild_nodes_state (P := fun s => s.labels.labels.map g = t.deduplicated.1.labels.labels.map g)
    (fun s n hs => (Link.map_resolve g hg arch s n).trans hs) rfl _

/-- Linking keeps the addresses of labels. -/
theorem map_address_link (arch : Architecture) (t : Tree) :
    (t.link arch).labels.labels.map Label.address = t.labels.labels.map Label.address := by
  have hdup : t.deduplicated.1.labels.labels.map Label.address = t.labels.labels.map Label.address :=
    Section.rebuild_nodes_state
      (P := fun s => s.labels.labels.map Label.address = t.labels.labels.map Label.address)
      (fun s n hs => (Link.map_address_dropDuplicate s n).trans hs) rfl t.nodes
  rw [labels_link, map_resolved _ (fun _ => rfl), hdup]

theorem size_labels_link (arch : Architecture) (t : Tree) : (t.link arch).labels.size = t.labels.size := by
  simpa [LabelTable.size] using congrArg List.length (map_address_link arch t)

theorem Unplaced.link {t : Tree} (h : t.Unplaced) (arch : Architecture) : (t.link arch).Unplaced := by
  constructor
  · rw [nodes_link]
    apply Section.rebuild_nodes_forall (P := fun n => n.address = none)
    · intro s n hn k hk
      rw [(Link.address_resolve arch s n k hk).1, hn]
    · apply Section.rebuild_nodes_forall (P := fun n => n.address = none) _ _ h.nodes
      intro s n hn k hk
      rw [(Link.address_dropDuplicate s n k hk).1, hn]
  · intro l hl
    have hmem : l.address ∈ (t.link arch).labels.labels.map Label.address := List.mem_map_of_mem hl
    rw [map_address_link] at hmem
    obtain ⟨k, hk, heq⟩ := List.mem_map.1 hmem
    rw [← heq, h.labels k hk]

theorem Declares.link {t : Tree} (h : t.Declares) (arch : Architecture) : (t.link arch).Declares := by
  have hsub : (declared (t.link arch).nodes).Sublist (declared t.nodes) := by
    rw [nodes_link]
    refine (Section.declared_rebuild_sublist ?_ _ _).trans (Section.declared_rebuild_sublist ?_ _ _)
    · exact fun s n k hk => (Link.address_resolve arch s n k hk).2
    · intro s n k hk
      rw [Node.declared?, (Link.address_dropDuplicate s n k hk).2]
      rfl
  refine ⟨h.nodup.sublist hsub, fun id hid => ?_⟩
  rw [size_labels_link]
  exact h.inTable id (hsub.subset hid)

/-! ## Whole files -/

/-- The tree of a file's own statements, before anything is grafted onto it. -/
def own (arch : Architecture) (r : Preprocessed) : Tree :=
  let found := Parse.lines arch {} (Line.ofTokens r.output.tokens)
  { file := r.file
    sections := (Parse.sections found.nodes).1
    labels := found.labels
    consumed := r.output.consumed
    diagnostics := r.output.diagnostics ++ found.errors ++ (Parse.sections found.nodes).2 }

theorem ofPreprocessed_eq (arch : Architecture) (r : Preprocessed) :
    ofPreprocessed arch r = r.output.imports.foldl graft (own arch r) := rfl

theorem nodes_own (arch : Architecture) (r : Preprocessed) :
    (own arch r).nodes =
      (Parse.bundle .text (Parse.lines arch {} (Line.ofTokens r.output.tokens)).nodes).1 ++
        (Parse.bundle .text (Parse.lines arch {} (Line.ofTokens r.output.tokens)).nodes).2.1.flatMap
          Section.nodes :=
  Parse.sections_eq _

theorem unplaced_own (arch : Architecture) (r : Preprocessed) : (own arch r).Unplaced := by
  have hfresh := Parse.fresh_empty.lines arch (Line.ofTokens r.output.tokens)
  refine ⟨fun n hn => ?_, hfresh.labels⟩
  rw [nodes_own] at hn
  exact hfresh.nodes n ((Parse.bundle_sublist _ _).subset hn)

theorem declares_own (arch : Architecture) (r : Preprocessed) : (own arch r).Declares := by
  have hdeclared : declared (own arch r).nodes = List.range (own arch r).labels.size := by
    rw [nodes_own, Parse.declared_bundle]
    exact (Parse.fresh_empty.lines arch (Line.ofTokens r.output.tokens)).declares
  constructor
  · rw [hdeclared]
    exact List.nodup_range
  · intro id hid
    rw [hdeclared] at hid
    exact List.mem_range.1 hid

theorem unplaced_ofPreprocessed (arch : Architecture) (r : Preprocessed) :
    (ofPreprocessed arch r).Unplaced := by
  rw [ofPreprocessed_eq]
  exact List.foldlRecOn _ _ (unplaced_own arch r) fun _ h other _ => h.graft other

theorem declares_ofPreprocessed (arch : Architecture) (r : Preprocessed)
    (himports : ∀ t ∈ r.output.imports, t.Declares) : (ofPreprocessed arch r).Declares := by
  rw [ofPreprocessed_eq]
  exact List.foldlRecOn _ _ (declares_own arch r) fun _ h other hother =>
    h.graft (himports other hother)

end Tree

namespace Assembler

/-- A source text after the preprocessor, with the character reported at which the scan stopped. -/
def preprocessed (a : Assembler) (name text : Text) : Preprocessed :=
  let scanned := Token.tokenize a.arch.dialect name text
  let r := Preprocess.run { dialect := a.arch.dialect, files := a.files, defines := a.defines } name
    scanned.tokens
  { r with output := { r.output with
    diagnostics := (scanned.error.map lexDiagnostic).toList ++ r.output.diagnostics } }

theorem tree_parse (a : Assembler) (name text : Text) :
    (a.parse name text).tree =
      (Tree.ofPreprocessed a.arch (a.preprocessed name text)).link a.arch := by
  rw [parse, preprocessed, Tree.parse]

/-- What is imported comes from the files of the assembler. -/
theorem mem_imports_preprocessed {a : Assembler} {name text : Text} {t : Tree}
    (ht : t ∈ (a.preprocessed name text).output.imports) : ∃ file, a.files file = some t := by
  simp only [preprocessed] at ht
  exact Preprocess.mem_imports_run ht

/-- Nothing has an address in a tree that was only parsed, whatever it imports. -/
theorem unplaced_parse (a : Assembler) (name text : Text) : (a.parse name text).tree.Unplaced := by
  rw [tree_parse]
  exact (Tree.unplaced_ofPreprocessed a.arch (a.preprocessed name text)).link a.arch

/-- The declarations of a parsed tree name distinct labels if those of its imports do. -/
theorem declares_parse (a : Assembler) (hfiles : ∀ file t, a.files file = some t → t.Declares)
    (name text : Text) : (a.parse name text).tree.Declares := by
  rw [tree_parse]
  refine (Tree.declares_ofPreprocessed a.arch (a.preprocessed name text) ?_).link a.arch
  intro t ht
  obtain ⟨file, hfile⟩ := mem_imports_preprocessed ht
  exact hfiles file t hfile

/-- What is assembled is a tree without errors. -/
theorem assemble_eq_some {a : Assembler} {t : Tree} {m : Memory} {out : Assembled}
    (h : a.assemble t m = some out) :
    t.errors = [] ∧ t.assemble a.arch a.origin a.wrapBranches m = out := by
  unfold assemble at h
  split_ifs at h with hempty
  exact ⟨List.isEmpty_iff.1 hempty, Option.some.inj h⟩

end Assembler

end EightBit
