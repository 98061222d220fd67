import Mathlib
import EightBit.Proofs.Linking
import EightBit.Proofs.Pattern
import EightBit.Proofs.Table

/-!
# What can go wrong after parsing

A tree without errors leaves little that can go wrong with its program. What a statement needs to be encoded
is checked while it is parsed, and nothing that follows takes it away: sections and imports keep statements as
they are, linking binds every word to a label that stays declared, and the layout gives all of these an
address. What remains depends on numbers that nobody has looked at yet.

* `Node.IsParsed`: a statement that a line was parsed to; `Tree.BuiltFor.isParsed` shows it for trees of source texts.
* `Element.Encodable`: what a statement needs to be encoded; `Tree.BuiltFor.encodable` shows it for these trees.
* `Tree.isSome_ref_link`: the words of a tree without errors have their labels.
* `Element.MayFail`: what may still go wrong with a statement; `Encoding.mayFail_of_emit?` shows that nothing
  else does.
* `Mos6502.assemble_mayFail`: the errors of programs for the 6502.
-/

namespace EightBit

/-! ## Operands that have a value -/

/-- A token that is a word or has a value. -/
def Token.IsReadable (d : Dialect) (t : Token) : Prop := t.kind = .word ∨ ∃ v, t.valueIn d = .ok v

namespace Component

/-- Whether a component accepts nothing but words and tokens with a value. -/
def isValued (d : Dialect) : Component → Bool
  | kinds ks => ks.all (· == .word)
  | fitting d' _ _ => d' == d
  | either first second => first.isValued d && second.isValued d
  | _ => false

theorem isReadable_of_accepts {d : Dialect} {c : Component} {t : Token} (hc : c.isValued d)
    (ht : c.accepts t) : t.IsReadable d := by
  induction c with
  | kinds ks =>
    have hmem : t.kind ∈ ks := by simpa [accepts] using ht
    exact .inl (by simpa using List.all_eq_true.1 hc _ hmem)
  | fitting d' size unsigned =>
    obtain rfl : d' = d := by simpa [isValued] using hc
    -- A constant is compared with the size only once its value is there.
    simp only [accepts, Bool.and_eq_true] at ht
    cases hvalue : t.valueIn d' with
    | ok v => exact .inr ⟨v, hvalue⟩
    | error e => simp [hvalue] at ht
  | either first second hfirst hsecond =>
    obtain ⟨hc, hc'⟩ := Bool.and_eq_true_iff.1 hc
    rcases Bool.or_eq_true_iff.1 ht with ht | ht
    · exact hfirst hc ht
    · exact hsecond hc' ht
  | _ => cases hc

end Component

namespace Mode

/-- Whether the operand of a mode, if there is one, is always a word or a constant with a value. -/
def isReadable (d : Dialect) (m : Mode) : Bool :=
  m.operand.all fun place => m.patterns.all fun p => p.components[place]?.any (·.isValued d)

/-- The operand that is found in the tokens of a mode is there, and readable. -/
theorem isReadable_of_match? {d : Dialect} {m : Mode} (hm : m.isReadable d) {ts : List Token}
    {found : Option Token} (h : m.match? ts = some found) :
    found.isSome = m.operand.isSome ∧ ∀ t ∈ found, t.IsReadable d := by
  obtain ⟨r, hr, rfl⟩ := Option.map_eq_some_iff.1 h
  obtain ⟨p, hp, hmatch⟩ := List.exists_of_findSome?_eq_some hr
  have haccepts := Pattern.accepts_of_matchExact hmatch
  cases hplace : m.operand with
  | none => exact ⟨rfl, by simp⟩
  | some place =>
    simp only [isReadable, hplace, Option.all_some] at hm
    obtain ⟨c, hc, hvalued⟩ := Option.any_eq_true _ _ |>.1 (List.all_eq_true.1 hm p hp)
    -- The component at the place of the operand has a token, which it accepts.
    obtain ⟨hlt, rfl⟩ := List.getElem?_eq_some_iff.1 hc
    have hlt' : place < r.tokens.length := haccepts.length_eq ▸ hlt
    have ht := haccepts.get hlt hlt'
    rw [Option.bind_some, List.getElem?_eq_getElem hlt']
    refine ⟨rfl, ?_⟩
    rintro t ⟨⟩
    exact Component.isReadable_of_accepts hvalued ht

end Mode

/-! ## Statements that can be encoded -/

/-- What a statement needs to be encoded, apart from addresses and from the size of values. -/
def Element.Encodable (arch : Architecture) : Element → Prop
  | .instruction mnemonic mode operand =>
    (arch.table.lookup? mnemonic mode).isSome ∧ (mode.operand.isSome → operand.isSome) ∧
      ∀ op ∈ operand, op.token.IsReadable arch.dialect
  | .data directive values =>
    directive ∈ arch.data ∧ ∀ op ∈ values, op.token.kind = .string → op.token.unquote?.isSome
  | .reserve directive _ => directive ∈ arch.data
  | _ => True

/-- An element without its labels. -/
def Element.shape : Element → Element
  | .label _ => .label 0
  | .global _ name => .global none { token := name.token }
  | e => e.mapOperands fun op => { token := op.token }

theorem Element.shape_mapOperands (e : Element) {f : Operand → Operand} (hf : ∀ op, (f op).token = op.token) :
    (e.mapOperands f).shape = e.shape := by
  cases e <;> simp [mapOperands, shape, hf, Function.comp_def]

theorem Element.shape_mapLabels (e : Element) (f : LabelId → LabelId) : (e.mapLabels f).shape = e.shape := by
  cases e <;> simp [mapLabels, mapOperands, shape, Function.comp_def]

/-- It does not matter which labels the operands refer to. -/
theorem Element.encodable_shape_iff {arch : Architecture} {e : Element} :
    e.shape.Encodable arch ↔ e.Encodable arch := by
  cases e with
  | instruction mnemonic mode operand => cases operand <;> simp [shape, mapOperands, Encodable]
  | data directive values => simp [shape, mapOperands, Encodable]
  | _ => exact Iff.rfl

/-- A target of which every instruction can be encoded that is recognised, and whose data consists of numbers
and labels. -/
structure Architecture.IsConsistent (arch : Architecture) : Prop where
  lookup : ∀ e ∈ arch.table.entries, (arch.table.lookup? e.mnemonic e.mode).isSome
  modes : ∀ m ∈ arch.modes, m.isReadable arch.dialect
  symbolicData : arch.symbolicData = false

namespace Statement

variable {arch : Architecture}

theorem encodable_recognize (harch : arch.IsConsistent) {mnemonic : Text} {args : List Token} {entry : Entry}
    {operand : Option Token} (h : arch.recognize mnemonic args = .ok (entry, operand)) :
    (Element.instruction entry.mnemonic entry.mode (operand.map fun t => { token := t })).Encodable arch := by
  unfold Architecture.recognize at h
  simp only at h
  split_ifs at h
  split at h
  · next found hfound =>
    cases h
    obtain ⟨mode, hmode, hmatch⟩ := List.exists_of_findSome?_eq_some hfound
    obtain ⟨tok, htok, hlookup⟩ := Option.bind_eq_some_iff.1 hmatch
    obtain ⟨e, he, heq⟩ := Option.map_eq_some_iff.1 hlookup
    obtain ⟨rfl, rfl⟩ := Prod.mk.inj heq
    have hsame : e.mode = mode := Table.mode_of_lookup? he
    obtain ⟨hsome, hreadable⟩ := Mode.isReadable_of_match? (harch.modes mode hmode) htok
    refine ⟨harch.lookup e (List.mem_of_find?_eq_some he), fun hop => ?_, ?_⟩
    · rw [Option.isSome_map, hsome, ← hsame, hop]
    · intro op hop
      obtain ⟨t, ht, rfl⟩ := Option.map_eq_some_iff.1 hop
      exact hreadable t ht
  · cases h

theorem unquote?_of_values {line : List Token} {parts : List (List Token)} {vs : List Operand}
    (h : values line parts = .ok vs) : ∀ op ∈ vs, op.token.kind = .string → op.token.unquote?.isSome := by
  -- One part holds one token, and a string is looked into at once.
  have hvalue : ∀ {part : List Token} {op : Operand}, value line part = .ok op →
      op.token.kind = .string → op.token.unquote?.isSome := by
    intro part op hop hkind
    unfold value at hop
    split at hop
    · split_ifs at hop with hconstant hstring hunquote
      · cases hop
        simp only at hkind
        simp [hkind, TokenKind.isConstant] at hconstant
      · cases hop
        exact hunquote
    · cases hop
  induction parts generalizing vs with
  | nil =>
    cases h
    simp
  | cons part parts ih =>
    obtain ⟨first, hfirst, h⟩ := exists_of_bind_eq_ok h
    obtain ⟨rest, hrest, h⟩ := exists_of_bind_eq_ok h
    cases h
    intro op hop
    rcases List.mem_cons.1 hop with rfl | hop
    · exact hvalue hfirst
    · exact ih hrest op hop

/-- A data directive reserves space or holds values. -/
theorem data_cases {directive : DataDirective} {line args : List Token} {e : Element}
    (h : data directive line args = .ok e) :
    e = .reserve directive 1 ∨ ∃ vs, values line (splitValues args) = .ok vs ∧ e = .data directive vs := by
  unfold data at h
  split_ifs at h
  · cases h
    exact .inl rfl
  · obtain ⟨vs, hvs, rfl⟩ := exists_of_map_eq_ok h
    exact .inr ⟨vs, hvs, rfl⟩

/-- What a line is parsed to: a directive without operands to be bound, data, or an instruction that is recognised. -/
theorem element_cases {head : Token} {args : List Token} {e : Element} (h : element arch head args = .ok e) :
    (∃ kind, e = .sectionStart kind) ∨ (∃ op, e = .global none op) ∨ (∃ t, e = .setPc t) ∨
      (∃ directive ∈ arch.data, data directive (head :: args) args = .ok e) ∨
      ∃ entry operand, arch.recognize head.text args = .ok (entry, operand) ∧
        e = .instruction entry.mnemonic entry.mode (operand.map fun t => { token := t }) := by
  unfold element at h
  split at h
  · obtain ⟨t, rfl⟩ := ofPattern_eq_ok h
    exact .inr (.inr (.inl ⟨t, rfl⟩))
  · split at h
    · -- In order: sections, globals, placement, data, unknown directives and instructions.
      unfold ofWord at h
      simp only at h
      split at h
      · split at h
        · cases h
          exact .inl ⟨_, rfl⟩
        · cases h
      · split at h
        · obtain ⟨t, rfl⟩ := ofPattern_eq_ok h
          exact .inr (.inl ⟨_, rfl⟩)
        · split at h
          · obtain ⟨t, rfl⟩ := ofPattern_eq_ok h
            exact .inr (.inr (.inl ⟨t, rfl⟩))
          · split at h
            next directive hfound =>
              exact .inr (.inr (.inr (.inl ⟨directive, List.mem_of_find?_eq_some hfound, h⟩)))
            next =>
              split at h
              · cases h
              · split at h
                next entry operand hfound =>
                  cases h
                  exact .inr (.inr (.inr (.inr ⟨entry, operand, hfound, rfl⟩)))
                next => cases h
    · cases h

/-- Every statement is checked for what it needs to be encoded. -/
theorem encodable_element (harch : arch.IsConsistent) {head : Token} {args : List Token} {e : Element}
    (h : element arch head args = .ok e) : e.Encodable arch := by
  obtain ⟨kind, rfl⟩ | ⟨op, rfl⟩ | ⟨t, rfl⟩ | ⟨directive, hdirective, hdata⟩ | ⟨entry, operand, hfound, rfl⟩ :=
    element_cases h
  · trivial
  · trivial
  · trivial
  · obtain rfl | ⟨vs, hvalues, rfl⟩ := data_cases hdata
    · exact hdirective
    · exact ⟨hdirective, unquote?_of_values hvalues⟩
  · exact encodable_recognize harch hfound

end Statement

/-! ## Trees of source texts -/

/-- A statement that declares a label, or that a line was parsed to, up to its labels. -/
def Node.IsParsed (arch : Architecture) (n : Node) : Prop :=
  n.element.shape = .label 0 ∨ ∃ head args e, n.tokens = head :: args ∧ Statement.element arch head args = .ok e ∧
    n.element.shape = e.shape

theorem Node.IsParsed.of_shape {arch : Architecture} {n k : Node} (h : n.IsParsed arch) (htokens : k.tokens = n.tokens)
    (hshape : k.element.shape = n.element.shape) : k.IsParsed arch := by
  unfold IsParsed at h ⊢
  rwa [htokens, hshape]

theorem Statement.isParsed_node {arch : Architecture} {parent : Option LabelId} {head : Token} {args : List Token}
    {n : Node} (h : node arch parent head args = .ok n) : n.IsParsed arch := by
  obtain ⟨e, he, rfl⟩ := exists_of_map_eq_ok h
  exact .inr ⟨head, args, e, rfl, he, rfl⟩

namespace Parse

variable {arch : Architecture} {P : Node → Prop}

theorem nodes_report (s : Parse) (d : Diagnostic) : (s.report d).nodes = s.nodes := by
  obtain ⟨errors, heq⟩ := exists_report_eq s d
  rw [heq]

theorem forall_nodes_add {s : Parse} (hs : ∀ n ∈ s.nodes, P n) {k : Node} (hk : P k) :
    ∀ n ∈ (s.add k).nodes, P n := by
  intro n hn
  rcases List.mem_append.1 hn with hn | hn
  · exact hs n hn
  · exact List.mem_singleton.1 hn ▸ hk

/-- What holds of declarations and of statements holds of all nodes of a file. -/
theorem forall_nodes_lines (hlabel : ∀ tokens id, P { tokens, element := .label id })
    (hnode : ∀ {parent head args n}, Statement.node arch parent head args = .ok n → P n) {s : Parse}
    (hs : ∀ n ∈ s.nodes, P n) (ls : List Line) : ∀ n ∈ (lines arch s ls).nodes, P n := by
  refine lines_induction (P := fun s => ∀ n ∈ s.nodes, P n) (fun {s s'} hs hstep => ?_) hs ls
  cases hstep with
  | orphan | refused =>
    rw [nodes_report]
    exact hs
  | subLabel => exact forall_nodes_add (s := { s with labels := _ }) hs (hlabel _ _)
  | topLabel => exact forall_nodes_add (s := { s with labels := _, parent := _ }) hs (hlabel _ _)
  | statement hn => exact forall_nodes_add hs (hnode hn)

end Parse

namespace Tree

variable {arch : Architecture}

/-- All statements of a tree were parsed from lines, up to their labels. -/
def IsParsed (arch : Architecture) (t : Tree) : Prop := ∀ n ∈ t.nodes, n.IsParsed arch

theorem isParsed_own (arch : Architecture) (r : Preprocessed) : (own arch r).IsParsed arch := by
  intro n hn
  rw [nodes_own] at hn
  exact Parse.forall_nodes_lines (P := Node.IsParsed arch) (fun _ _ => .inl rfl) Statement.isParsed_node (by simp) _ n
    ((Parse.bundle_sublist _ _).subset hn)

theorem IsParsed.graft {t other : Tree} (h : t.IsParsed arch) (hother : other.IsParsed arch) :
    (t.graft other).IsParsed arch := by
  intro n hn
  rw [nodes_graft] at hn
  rcases List.mem_append.1 hn with hn | hn
  · exact h n hn
  · obtain ⟨k, hk, rfl⟩ := List.mem_map.1 hn
    exact (hother k hk).of_shape rfl (Element.shape_mapLabels _ _)

theorem IsParsed.link {t : Tree} (h : t.IsParsed arch) : (t.link arch).IsParsed arch := by
  intro n hn
  rw [nodes_link] at hn
  refine Section.rebuild_nodes_forall (P := Node.IsParsed arch) ?_ _ ?_ n hn
  · intro s n hn k hk
    rcases Link.resolve_cases hk with ⟨_, _, _, helement, _, rfl⟩ | ⟨-, rfl⟩
    · exact hn.of_shape rfl (by rw [helement]; rfl)
    · exact hn.of_shape rfl (Element.shape_mapOperands _ fun _ => rfl)
  · refine Section.rebuild_nodes_forall (P := Node.IsParsed arch) ?_ _ h
    intro s n hn k hk
    rw [Link.eq_of_mem_dropDuplicate hk]
    exact hn

theorem IsParsed.layout {t : Tree} (h : t.IsParsed arch) (arch' : Architecture) (origin : UInt64) :
    (t.layout arch' origin).1.IsParsed arch := by
  intro n hn
  have hmem : n.bare ∈ t.nodes.map Node.bare := by
    rw [← bare_layout arch' origin]
    exact List.mem_map_of_mem hn
  obtain ⟨k, hk, heq⟩ := List.mem_map.1 hmem
  exact (h k hk).of_shape (congrArg (·.tokens) heq.symm) (congrArg (·.element.shape) heq.symm)

/-- All statements of a tree have what they need to be encoded. -/
def Encodable (arch : Architecture) (t : Tree) : Prop := ∀ n ∈ t.nodes, n.element.Encodable arch

theorem Encodable.layout {t : Tree} (h : t.Encodable arch) (arch' : Architecture) (origin : UInt64) :
    (t.layout arch' origin).1.Encodable arch := by
  intro n hn
  obtain ⟨k, hk, helement⟩ := exists_of_mem_layout hn
  exact helement ▸ h k hk

/-- Trees obtained for a target from source texts, by parsing and assembling; so are the imports. -/
inductive BuiltFor (arch : Architecture) : Tree → Prop
  | parse (a : Assembler) (harch : a.arch = arch) (hfiles : ∀ file t, a.files file = some t → BuiltFor arch t)
    (name text : Text) : BuiltFor arch (a.parse name text).tree
  | assemble (a : Assembler) (harch : a.arch = arch) {t : Tree} (ht : BuiltFor arch t) (m : Memory)
    {out : Assembled} (hout : a.assemble t m = some out) : BuiltFor arch out.tree

theorem BuiltFor.fromSource {t : Tree} (h : t.BuiltFor arch) : t.FromSource := by
  induction h with
  | parse a _ _ name text ih => exact .parse a ih name text
  | assemble a _ _ m hout ih => exact .assemble a ih m hout

/-- Whatever happens to the labels of a tree, its statements remain what lines were parsed to. -/
theorem BuiltFor.isParsed {t : Tree} (h : t.BuiltFor arch) : t.IsParsed arch := by
  induction h with
  | parse a ha _ name text ih =>
    subst ha
    rw [Assembler.tree_parse, ofPreprocessed_eq]
    refine IsParsed.link (List.foldlRecOn _ _ (isParsed_own _ _) fun t ht other hother => ht.graft ?_)
    obtain ⟨file, hfile⟩ := Assembler.mem_imports_preprocessed hother
    exact ih file other hfile
  | assemble a _ _ m hout ih =>
    obtain ⟨-, rfl⟩ := Assembler.assemble_eq_some hout
    exact ih.layout a.arch a.origin

theorem BuiltFor.encodable (harch : arch.IsConsistent) {t : Tree} (h : t.BuiltFor arch) :
    t.Encodable arch := by
  intro n hn
  rw [← Element.encodable_shape_iff]
  rcases h.isParsed n hn with hshape | ⟨head, args, e, -, he, hshape⟩
  · rw [hshape]
    trivial
  · rw [hshape, Element.encodable_shape_iff]
    exact Statement.encodable_element harch he

theorem FromSource.fromParse {t : Tree} (h : t.FromSource) : t.FromParse := by
  induction h with
  | parse a _ name text ih =>
    rw [Assembler.tree_parse]
    refine FromParse.parse a.arch (a.preprocessed name text) fun t ht => ?_
    obtain ⟨file, hfile⟩ := Assembler.mem_imports_preprocessed ht
    exact ih file t hfile
  | assemble a _ m hout ih => exact .assemble a ih m hout

end Tree

/-! ## References of trees without errors -/

namespace Link

variable {arch : Architecture}

theorem diagnostics_resolve (s : References) (n : Node) :
    s.diagnostics ⊆ (resolve arch s n).1.diagnostics := by
  unfold resolve
  split
  · split
    · exact List.subset_append_left _ _
    · exact List.Subset.refl _
  · exact List.subset_append_left _ _
  · exact List.subset_append_left _ _
  · exact List.Subset.refl _

/-- A word that has no label is reported. -/
theorem isSome_ref_or_isError (hsymbolic : arch.symbolicData = false) {s : References} {n k : Node}
    (hk : k ∈ (resolve arch s n).2) {op : Operand} (hop : op ∈ k.element.operands) (hword : op.isWord) :
    op.ref.isSome ∨ ∃ d ∈ (resolve arch s n).1.diagnostics, d.isError := by
  rcases resolve_cases hk with ⟨found, name, id, -, -, rfl⟩ | ⟨hn, rfl⟩
  · rw [List.mem_singleton.1 hop]
    exact .inl rfl
  · cases href : op.ref with
    | some id => exact .inl rfl
    | none =>
      -- Where data has to be numbers and labels, all operands are looked through.
      refine .inr ⟨.error (.labelMissing op.token.text) [op.token], ?_, rfl⟩
      rw [resolve_of_not_global arch s hn]
      refine List.mem_append_right _ ?_
      rw [hsymbolic, Bool.false_and, if_neg Bool.false_ne_true]
      exact List.mem_filterMap.2 ⟨op, hop, by simp [missing?, hword, href]⟩

end Link

namespace Tree

/-- The words of a tree that was linked without errors have their labels. -/
theorem isSome_ref_link {arch : Architecture} (hsymbolic : arch.symbolicData = false) {t : Tree}
    (herrors : (t.link arch).errors = []) {k : Node} (hk : k ∈ (t.link arch).nodes) {op : Operand}
    (hop : op ∈ k.element.operands) (hword : op.isWord) : op.ref.isSome := by
  rw [nodes_link] at hk
  obtain ⟨before, n, after, hnodes, hn⟩ := Section.exists_of_mem_rebuild_nodes hk
  rcases Link.isSome_ref_or_isError hsymbolic hn hop hword with hsome | ⟨d, hd, herror⟩
  · exact hsome
  · -- What is reported on the way is still there in the end.
    have hfinal : d ∈ (t.resolved arch).1.diagnostics := by
      rw [resolved, hnodes, Section.rebuild_nodes_append]
      exact Section.rebuild_nodes_state (P := fun s => d ∈ s.diagnostics)
        (fun s n hs => Link.diagnostics_resolve s n hs) hd after
    have hmem : d ∈ (t.link arch).errors := by
      rw [errors, diagnostics_link]
      exact List.mem_filter.2 ⟨List.mem_append_right _ (List.mem_append_right _ hfinal), herror⟩
    rw [herrors] at hmem
    cases hmem

/-- Whatever is declared has an address after the layout. -/
theorem isSome_addressOf?_layout {t : Tree} (hunplaced : t.Unplaced) (hdeclares : t.Declares)
    (arch : Architecture) (origin : UInt64) {id : LabelId} (hid : id ∈ declared t.nodes) :
    ((t.layout arch origin).1.labels.addressOf? id).isSome := by
  have hagrees := Layout.agrees_run arch origin hunplaced.nodes hunplaced.labels hdeclares.nodup
    hdeclares.inTable
  rw [← Layout.declared_run arch origin t.labels] at hid
  obtain ⟨n, hn, hdeclared⟩ := List.mem_filterMap.1 hid
  have haddressed := hagrees.addressed n (List.mem_reverse.1 hn) id hdeclared
  exact haddressed ▸ Layout.isSome_address_run arch origin t.labels t.nodes n hn

end Tree

/-! ## What may still go wrong -/

/-- Whether an error tells that something was missed before. -/
def EncodeError.isInternal : EncodeError → Bool
  | notString _ | opcodeMissing | operandMissing | labelUnresolved | symbolUnknown => true
  | value _ | branchRange | valueRange => false

/-- What may still go wrong with a statement of a tree without errors: the numbers in placements and data
need not have a value, data may be too large for its directive, and branches may lead too far. -/
inductive Element.MayFail (d : Dialect) : Element → EncodeError → Prop
  | setPc {value : Token} {e : ValueError} (hvalue : value.valueIn d = .error e) :
    MayFail d (.setPc value) (.value e)
  | dataValue {directive : DataDirective} {values : List Operand} {op : Operand} {e : ValueError}
    (hop : op ∈ values) (hvalue : op.token.valueIn d = .error e) : MayFail d (.data directive values) (.value e)
  | dataRange (directive : DataDirective) (values : List Operand) :
    MayFail d (.data directive values) .valueRange
  | branchRange (mnemonic : Text) {mode : Mode} (operand : Option Operand) (hrelative : mode.relative) :
    MayFail d (.instruction mnemonic mode operand) .branchRange

theorem Element.MayFail.isInternal {d : Dialect} {e : Element} {cause : EncodeError}
    (h : e.MayFail d cause) : cause.isInternal = false := by
  cases h <;> rfl

/-- An operand that has an address if it is a word. -/
def Operand.IsPlaced (labels : LabelTable) (op : Operand) : Prop :=
  op.isWord → ∃ id, op.ref = some id ∧ (labels.addressOf? id).isSome

namespace Encoding

variable {enc : Encoding}

theorem value_eq_error {op : Operand} (hop : op.IsPlaced enc.labels) {e : EncodeError}
    (h : enc.value op = .error e) :
    ¬ op.isWord ∧ ∃ v, e = .value v ∧ op.token.valueIn enc.arch.dialect = .error v := by
  -- A name whose label has an address has a value; only a constant may lack one.
  by_cases hword : op.isWord
  · obtain ⟨id, hid, hplaced⟩ := hop hword
    obtain ⟨addr, haddr⟩ := Option.isSome_iff_exists.1 hplaced
    rw [LabelTable.addressOf?] at haddr
    simp [value, hword, hid, haddr] at h
  · refine ⟨hword, ?_⟩
    rw [value, if_neg hword] at h
    split at h
    · cases h
    next v hv =>
      cases h
      exact ⟨v, rfl, hv⟩

/-- An instruction that was recognised may only lead too far. -/
theorem instruction_eq_error {addr : UInt64} {mnemonic : Text} {mode : Mode} {operand : Option Operand}
    (hencodable : (Element.instruction mnemonic mode operand).Encodable enc.arch)
    (hplaced : ∀ op ∈ operand, op.IsPlaced enc.labels) {e : EncodeError}
    (h : enc.instruction addr mnemonic mode operand = .error e) : mode.relative ∧ e = .branchRange := by
  obtain ⟨hentry, hsome, hreadable⟩ := hencodable
  obtain ⟨entry, hentry⟩ := Option.isSome_iff_exists.1 hentry
  obtain rfl := Table.mode_of_lookup? hentry
  rw [instruction_eq hentry] at h
  have hraw := eq_error_of_map h
  unfold rawOperand at hraw
  split_ifs at hraw with hoperand
  obtain ⟨op, rfl⟩ := Option.isSome_iff_exists.1 (hsome hoperand.1)
  rcases bind_eq_error hraw with hvalue | ⟨v, -, hbits⟩
  · -- A word is placed, and a constant was evaluated when the instruction was recognised.
    obtain ⟨hword, v, -, hv⟩ := value_eq_error (hplaced op rfl) hvalue
    rcases hreadable op rfl with hkind | ⟨v', hv'⟩
    · exact absurd (by simp [Operand.isWord, hkind]) hword
    · rw [hv] at hv'
      cases hv'
  · simp only [operandBits] at hbits
    split_ifs at hbits with hrelative hrange
    cases hbits
    exact ⟨by simpa using hrelative, rfl⟩

/-- A value that was parsed may only lack a number or be too large. -/
theorem valueBytes_eq_error {size : Nat} {op : Operand}
    (hstring : op.token.kind = .string → op.token.unquote?.isSome) (hplaced : op.IsPlaced enc.labels)
    {e : EncodeError} (h : enc.valueBytes size op = .error e) :
    (∃ v, e = .value v ∧ op.token.valueIn enc.arch.dialect = .error v) ∨ e = .valueRange := by
  unfold valueBytes at h
  split_ifs at h with hkind
  · obtain ⟨text, htext⟩ := Option.isSome_iff_exists.1 (hstring hkind)
    simp [htext] at h
  · rcases bind_eq_error h with hvalue | ⟨v, -, h⟩
    · exact .inl (value_eq_error hplaced hvalue).2
    · split_ifs at h
      · cases h
      · cases h
        exact .inr rfl

/-- The first value that goes wrong is the error of all of them. -/
theorem valuesBytes_eq_error {size : Nat} {values : List Operand}
    (hstrings : ∀ op ∈ values, op.token.kind = .string → op.token.unquote?.isSome)
    (hplaced : ∀ op ∈ values, op.IsPlaced enc.labels) {e : EncodeError}
    (h : enc.valuesBytes size values = .error e) :
    (∃ op ∈ values, ∃ v, e = .value v ∧ op.token.valueIn enc.arch.dialect = .error v) ∨ e = .valueRange := by
  induction values with
  | nil => cases h
  | cons op rest ih =>
    rcases bind_eq_error h with hfirst | ⟨first, -, h⟩
    · refine (valueBytes_eq_error (hstrings op List.mem_cons_self) (hplaced op List.mem_cons_self)
        hfirst).imp_left ?_
      exact fun hv => ⟨op, List.mem_cons_self, hv⟩
    · rcases bind_eq_error h with hmore | ⟨more, -, h⟩
      · refine (ih (fun k hk => hstrings k (List.mem_cons_of_mem op hk))
          (fun k hk => hplaced k (List.mem_cons_of_mem op hk)) hmore).imp_left ?_
        rintro ⟨k, hk, hv⟩
        exact ⟨k, List.mem_cons_of_mem op hk, hv⟩
      · cases h

/-- Nothing else goes wrong with a statement that has what it needs and whose labels have addresses. -/
theorem mayFail_of_emit? {n : Node} (hencodable : n.element.Encodable enc.arch)
    (hplaced : ∀ op ∈ n.element.operands, op.IsPlaced enc.labels) {err : AssemblyError}
    (h : enc.emit? n = some (.error err)) :
    ∃ cause, err = .at n cause ∧ n.element.MayFail enc.arch.dialect cause := by
  unfold emit? at h
  simp only at h
  split at h
  next mnemonic mode operand hn =>
    cases hrow : enc.instruction n.addr mnemonic mode operand with
    | ok row => simp [hrow] at h
    | error e =>
      obtain rfl : AssemblyError.at n e = err := by simpa [hrow] using h
      rw [hn] at hencodable hplaced ⊢
      obtain ⟨hrelative, rfl⟩ := instruction_eq_error hencodable
        (fun op hop => hplaced op (Option.mem_toList.2 hop)) hrow
      exact ⟨_, rfl, .branchRange mnemonic operand hrelative⟩
  next directive values hn =>
    cases hbytes : enc.valuesBytes directive.size values with
    | ok bytes => simp [data, hbytes, bind, Except.bind, pure, Except.pure] at h
    | error e =>
      obtain rfl : AssemblyError.at n e = err := by simpa [data, hbytes, bind, Except.bind] using h
      rw [hn] at hencodable hplaced ⊢
      rcases valuesBytes_eq_error hencodable.2 hplaced hbytes with ⟨op, hop, v, rfl, hv⟩ | rfl
      · exact ⟨_, rfl, .dataValue hop hv⟩
      · exact ⟨_, rfl, .dataRange directive values⟩
  next => simp at h
  next => cases h

end Encoding

namespace Layout

/-- The layout refuses only placements without a value. -/
theorem mayFail_of_mem_errors (arch : Architecture) (origin : UInt64) (labels : LabelTable)
    (nodes : List Node) {err : AssemblyError} (h : err ∈ (run arch origin labels nodes).errors) :
    ∃ n ∈ nodes, ∃ cause, err = .at n cause ∧ n.element.MayFail arch.dialect cause := by
  rw [errors_run] at h
  obtain ⟨n, hn, herr⟩ := List.mem_filterMap.1 h
  refine ⟨n, hn, ?_⟩
  unfold misplaced? at herr
  split at herr
  next value helement =>
    split at herr
    · cases herr
    next e hvalue =>
      cases herr
      rw [helement]
      exact ⟨_, rfl, .setPc hvalue⟩
  · cases herr

end Layout

namespace Assembler

/-- The operands of a parsed tree without errors are placed by the layout. -/
theorem isPlaced_layout {p : Assembler} (hsymbolic : p.arch.symbolicData = false)
    (hfiles : ∀ file t, p.files file = some t → t.FromSource) (name text : Text)
    (herrors : (p.parse name text).tree.errors = []) (arch : Architecture) (origin : UInt64) {n : Node}
    (hn : n ∈ ((p.parse name text).tree.layout arch origin).1.nodes) :
    ∀ op ∈ n.element.operands, op.IsPlaced ((p.parse name text).tree.layout arch origin).1.labels := by
  have hsource := Tree.FromSource.parse p hfiles name text
  have hunplaced := p.unplaced_parse name text
  have hlinked : (p.parse name text).tree.Linked := by
    rw [tree_parse]
    refine Tree.linked_link (Tree.wellScoped_ofPreprocessed _ _ fun t ht => ?_) p.arch
    obtain ⟨file, hfile⟩ := mem_imports_preprocessed ht
    exact (hfiles file t hfile).fromParse.wellScoped
  have hscoped := hsource.fromParse.wellScoped
  obtain ⟨k, hk, helement⟩ := Tree.exists_of_mem_layout hn
  intro op hop hword
  rw [← helement] at hop
  -- The word was bound to a live label, which is declared and hence placed.
  have hsome : op.ref.isSome := by
    rw [tree_parse] at herrors hk
    exact Tree.isSome_ref_link hsymbolic herrors hk hop hword
  obtain ⟨id, hid⟩ := Option.isSome_iff_exists.1 hsome
  have hlive := hlinked.refs k hk op hop id hid
  exact ⟨id, hid, Tree.isSome_addressOf?_layout hunplaced hsource.declares arch origin
    ((hscoped.live id).2 hlive)⟩

end Assembler

namespace Tree

variable {arch : Architecture} {t : Tree} {origin : UInt64} {wrapBranches : Bool} {m : Memory}

/-- Only what depends on the values of numbers may go wrong with a program. -/
theorem mayFail_of_mem_errors (hencodable : t.Encodable arch)
    (hplaced : ∀ n ∈ (t.layout arch origin).1.nodes, ∀ op ∈ n.element.operands,
      op.IsPlaced (t.layout arch origin).1.labels) {err : AssemblyError}
    (herr : err ∈ (t.assemble arch origin wrapBranches m).errors) :
    ∃ n ∈ (t.layout arch origin).1.nodes, ∃ cause,
      err = .at n cause ∧ n.element.MayFail arch.dialect cause := by
  rcases List.mem_append.1 herr with herr | herr
  · -- A placement is reported as it was before it got its address.
    obtain ⟨n, hn, cause, rfl, hfail⟩ := Layout.mayFail_of_mem_errors _ _ _ _ herr
    have hmem : n.bare ∈ (t.layout arch origin).1.nodes.map Node.bare := by
      rw [bare_layout]
      exact List.mem_map_of_mem hn
    obtain ⟨k, hk, heq⟩ := List.mem_map.1 hmem
    have helement : k.element = n.element := congrArg (·.element) heq
    have htokens : k.tokens = n.tokens := congrArg (·.tokens) heq
    refine ⟨k, hk, cause, ?_, helement ▸ hfail⟩
    rw [AssemblyError.at, AssemblyError.at, Node.loc, Node.loc, Node.text, Node.text, htokens]
  · obtain ⟨emitted, hemitted, heq⟩ := List.mem_filterMap.1 herr
    obtain ⟨n, hn, hemit⟩ := List.mem_filterMap.1 hemitted
    cases emitted with
    | ok e => cases heq
    | error e =>
      cases heq
      obtain ⟨cause, rfl, hfail⟩ := Encoding.mayFail_of_emit? (hencodable.layout arch origin n hn)
        (hplaced n hn) hemit
      exact ⟨n, hn, cause, rfl, hfail⟩

end Tree

namespace Mos6502

theorem isConsistent_architecture : architecture.IsConsistent where
  lookup e he := by
    rw [table_architecture] at he ⊢
    obtain ⟨op, a, -, heq⟩ := exists_of_mem_table he
    rw [heq] at he ⊢
    rw [lookup?_of_mem_table he]
    rfl
  modes := by decide
  symbolicData := rfl

/-- A source text for the 6502 that is parsed without errors is assembled, and every error that is left is
one of a number: a placement or data without a value, data that does not fit, or a branch that leads too
far. -/
theorem assemble_mayFail (p a : Assembler) (hp : p.arch = architecture) (ha : a.arch = architecture)
    (hfiles : ∀ file t, p.files file = some t → t.BuiltFor architecture) (name text : Text)
    (herrors : (p.parse name text).tree.errors = []) (m : Memory) :
    ∃ out, a.assemble (p.parse name text).tree m = some out ∧ ∀ err ∈ out.errors,
      err.cause.isInternal = false ∧
        ∃ n ∈ out.tree.nodes, ∃ cause, err = .at n cause ∧ n.element.MayFail dialect cause := by
  have hsymbolic : p.arch.symbolicData = false := by rw [hp]; rfl
  have hencodable := (Tree.BuiltFor.parse p hp hfiles name text).encodable isConsistent_architecture
  have hplaced := fun n => Assembler.isPlaced_layout (n := n) hsymbolic
    (fun file t ht => (hfiles file t ht).fromSource) name text herrors architecture a.origin
  generalize (p.parse name text).tree = t at herrors hencodable hplaced
  refine ⟨_, if_pos (List.isEmpty_iff.2 herrors), fun err herr => ?_⟩
  rw [ha] at herr ⊢
  obtain ⟨n, hn, cause, rfl, hfail⟩ := Tree.mayFail_of_mem_errors hencodable hplaced herr
  exact ⟨hfail.isInternal, n, hn, cause, rfl, hfail⟩

/-- The tree of a file with a routine, after it was assembled. -/
def routineTree : Tree :=
  (((Assembler.ofArchitecture architecture).parse "lib" "shared: LDA #1\n RTS\n").tree.assemble
    architecture 0x0200 false (.empty 16 none)).tree

/-- An assembler to which every file is the one with the routine. -/
def routineImporter : Assembler :=
  { Assembler.ofArchitecture architecture with files := fun _ => some routineTree }

/-- A branch that leads too far, data that does not fit, and data and a placement that are no numbers. -/
def failingSource : Text :=
  "#import \"lib\"\nstart: BNE far\n.org 4096\nfar: JSR shared\n.byte 300, start\n.word 99999999999999999999, \"a\"\n.org 99999999999999999999\n"

theorem assemble_mayFail_importing :
    routineTree.BuiltFor architecture ∧
      ∃ out, routineImporter.assemble (routineImporter.parse "demo" failingSource).tree (.empty 16 none) =
          some out ∧
        out.errors.length = 4 ∧ out.errors[1]?.map (·.cause) = some .branchRange ∧
        ∀ err ∈ out.errors, err.cause.isInternal = false ∧
          ∃ n ∈ out.tree.nodes, ∃ cause, err = .at n cause ∧ n.element.MayFail dialect cause := by
  have hcheck :
      ((Assembler.ofArchitecture architecture).parse "lib" "shared: LDA #1\n RTS\n").tree.errors.isEmpty ∧
      (routineImporter.parse "demo" failingSource).tree.errors = [] ∧
      (routineImporter.assemble (routineImporter.parse "demo" failingSource).tree (.empty 16 none)).map
        (fun out => (out.errors.length, out.errors[1]?.map (·.cause))) = some (4, some .branchRange) := by
    decide +kernel
  obtain ⟨hempty, herrors, hcauses⟩ := hcheck
  have hroutine : routineTree.BuiltFor architecture :=
    .assemble (Assembler.ofArchitecture architecture) rfl
      (.parse (Assembler.ofArchitecture architecture) rfl (fun _ _ h => nomatch h) "lib" _) _ (if_pos hempty)
  obtain ⟨out, hout, hfail⟩ := assemble_mayFail routineImporter routineImporter rfl rfl
    (fun _ _ h => Option.some.inj h ▸ hroutine) "demo" failingSource herrors (.empty 16 none)
  rw [hout] at hcauses
  obtain ⟨hlength, hcause⟩ := Prod.mk.inj (Option.some.inj hcauses)
  exact ⟨hroutine, out, hout, hlength, hcause, hfail⟩

end Mos6502

end EightBit
