import Mathlib
import EightBit.Assembly.Assembler
import EightBit.Proofs.Renumbering

/-!
# Trees up to the numbers of their tokens

The parser, the linker and the assembler never ask for the number of a token either. So lines that differ in the
numbers of their tokens are parsed alike, and trees that differ in these numbers only are linked and assembled
alike: into the same program, with the same errors.

* `Node.anonymous`, `LabelTable.anonymous` and their companions: parts of a tree without the numbers of tokens.
* `Parse.line_anonymous`: the parser does not see numbers.
* `Tree.Agrees`: trees that differ in numbers, and in what was consumed or reported; `Tree.Agrees.link` and
  `Tree.Agrees.graft` for what is done with trees.
* `Tree.Agrees.assemble`: trees that agree are assembled into the same program.
-/

namespace EightBit

/-! ## Parts of trees -/

/-- An operand without the number of its token. -/
def Operand.anonymous (op : Operand) : Operand := { op with token := op.token.anonymous }

/-- An element without the numbers of its tokens. -/
def Element.anonymous : Element → Element
  | instruction mnemonic mode operand => instruction mnemonic mode (operand.map Operand.anonymous)
  | data directive values => data directive (values.map Operand.anonymous)
  | global found name => global found name.anonymous
  | setPc value => setPc value.anonymous
  | e => e

/-- A statement without the numbers of its tokens. -/
def Node.anonymous (n : Node) : Node :=
  { n with tokens := n.tokens.map Token.anonymous, element := n.element.anonymous }

/-- A label without the number of its token. -/
def Label.anonymous (l : Label) : Label := { l with token := l.token.anonymous }

/-- Labels without the numbers of their tokens. -/
def LabelTable.anonymous (t : LabelTable) : LabelTable := ⟨t.labels.map Label.anonymous⟩

/-- A section without the numbers of its tokens. -/
def Section.anonymous (s : Section) : Section := { s with nodes := s.nodes.map Node.anonymous }

/-- A diagnostic without the numbers of its tokens. -/
def Diagnostic.anonymous (d : Diagnostic) : Diagnostic := { d with tokens := d.tokens.map Token.anonymous }

theorem Operand.elements_anonymous (op : Operand) : op.anonymous.elements = op.elements := rfl

namespace Element

@[simp] theorem kind_anonymous (e : Element) : e.anonymous.kind = e.kind := by cases e <;> rfl

theorem size_anonymous (e : Element) : e.anonymous.size = e.size := by
  cases e with
  | data directive values =>
    simp only [anonymous, size, List.foldr_map, Operand.elements_anonymous]
  | _ => rfl

theorem alignment?_anonymous (e : Element) : e.anonymous.alignment? = e.alignment? := by cases e <;> rfl

theorem operands_anonymous (e : Element) : e.anonymous.operands = e.operands.map Operand.anonymous := by
  cases e with
  | instruction mnemonic mode operand => cases operand <;> rfl
  | _ => rfl

/-- Changes that do not depend on numbers. -/
theorem mapOperands_anonymous {f g : Operand → Operand} (hfg : ∀ op, g op.anonymous = (f op).anonymous) (e : Element) :
    e.anonymous.mapOperands g = (e.mapOperands f).anonymous := by
  cases e with
  | instruction mnemonic mode operand => cases operand <;> simp [anonymous, mapOperands, hfg]
  | data directive values => simp [anonymous, mapOperands, hfg, Function.comp_def]
  | global found name => simp [anonymous, mapOperands, hfg]
  | _ => rfl

end Element

namespace Node

@[simp] theorem loc_anonymous (n : Node) : n.anonymous.loc = n.loc := Token.firstLoc_anonymous n.tokens

@[simp] theorem text_anonymous (n : Node) : n.anonymous.text = n.text := by
  rw [text, text, anonymous, Token.trim_anonymous, Token.join_anonymous]

@[simp] theorem kind_anonymous (n : Node) : n.anonymous.kind = n.kind := n.element.kind_anonymous

@[simp] theorem size_anonymous (n : Node) : n.anonymous.size = n.size := n.element.size_anonymous

end Node

namespace LabelTable

variable (t : LabelTable)

@[simp] theorem size_anonymous : t.anonymous.size = t.size := List.length_map _

theorem add_anonymous (l : Label) : t.anonymous.add l.anonymous = (t.add l).anonymous := by
  simp [anonymous, add]

@[simp] theorem get?_anonymous (id : LabelId) : t.anonymous.get? id = (t.get? id).map Label.anonymous :=
  List.getElem?_map ..

theorem modify_anonymous {f : Label → Label} (hf : ∀ l, f l.anonymous = (f l).anonymous) (id : LabelId) :
    t.anonymous.modify id f = (t.modify id f).anonymous := by
  refine congrArg LabelTable.mk (List.ext_getElem? fun n => ?_)
  simp only [anonymous, modify, List.getElem?_modify, List.getElem?_map]
  cases t.labels[n]? with
  | none => rfl
  | some l =>
    simp only [Option.map_eq_map, Option.map_some]
    split_ifs
    · exact congrArg some (hf l)
    · rfl

theorem live_anonymous : t.anonymous.live = t.live.map (Prod.map id Label.anonymous) := by
  have hdropped : ∀ l : Label, l.anonymous.dropped = l.dropped := fun _ => rfl
  simp only [live, anonymous, List.zipIdx_map, List.filter_map, List.map_map, Function.comp_def, Prod.map, hdropped, id]

theorem fullNameOf_anonymous (l : Label) : t.anonymous.fullNameOf l.anonymous = t.fullNameOf l := by
  have hparent : l.anonymous.parent = l.parent := rfl
  rw [fullNameOf, fullNameOf, hparent]
  cases l.parent with
  | none => rfl
  | some id =>
    rw [Option.bind_some, Option.bind_some, get?_anonymous, Option.map_map]
    rfl

theorem lookup?_anonymous (parent : Option LabelId) (name : Text) :
    t.anonymous.lookup? parent name = t.lookup? parent name := by
  rw [lookup?, lookup?, live_anonymous, List.find?_map, Option.map_map]
  rfl

theorem lookupFull?_anonymous (name : Text) : t.anonymous.lookupFull? name = t.lookupFull? name := by
  rw [lookupFull?, lookupFull?, live_anonymous, List.find?_map, Option.map_map]
  simp only [Function.comp_def, Prod.map, fullNameOf_anonymous, id]

theorem namesAt_anonymous (address : UInt64) : t.anonymous.namesAt address = t.namesAt address := by
  rw [namesAt, namesAt, live_anonymous, List.filter_map, List.map_map]
  simp only [Function.comp_def, Prod.map, fullNameOf_anonymous]
  rfl

theorem resolve?_anonymous (d : Dialect) (scope : Option LabelId) (name : Text) :
    t.anonymous.resolve? d scope name = t.resolve? d scope name := by
  rw [resolve?, resolve?, lookup?_anonymous, lookup?_anonymous, lookupFull?_anonymous]

end LabelTable

/-! ## Statements -/

namespace Mode

theorem match?_anonymous {m : Mode} (hm : ∀ p ∈ m.patterns, p.isLexical) (ts : List Token) :
    m.match? (ts.map Token.anonymous) = (m.match? ts).map (Option.map Token.anonymous) := by
  -- By induction on the patterns, the first of which that matches counts.
  have hfind : m.patterns.findSome? (·.matchExact (ts.map Token.anonymous)) =
      (m.patterns.findSome? (·.matchExact ts)).map Match.anonymous := by
    generalize m.patterns = ps at hm ⊢
    induction ps with
    | nil => rfl
    | cons p ps ih =>
      obtain ⟨hp, hps⟩ := List.forall_mem_cons.1 hm
      rw [List.findSome?_cons, List.findSome?_cons, Pattern.matchExact_anonymous hp, ih hps]
      cases p.matchExact ts <;> rfl
  rw [match?, match?, hfind, Option.map_map, Option.map_map]
  congr 1
  funext r
  cases m.operand with
  | none => rfl
  | some n => exact List.getElem?_map ..

end Mode

/-- An architecture whose addressing modes are told by the kinds, texts and values of tokens. -/
def Architecture.IsLexical (arch : Architecture) : Prop := ∀ m ∈ arch.modes, ∀ p ∈ m.patterns, p.isLexical

theorem Architecture.recognize_anonymous {arch : Architecture} (harch : arch.IsLexical) (mnemonic : Text)
    (ts : List Token) :
    arch.recognize mnemonic (ts.map Token.anonymous) =
      (arch.recognize mnemonic ts).map (Prod.map id (Option.map Token.anonymous)) := by
  -- By induction on the modes, the first of which that matches and has an entry counts.
  have hfind : (arch.modes.findSome? fun mode => (mode.match? (ts.map Token.anonymous)).bind fun tok =>
        (arch.table.lookup? mnemonic.toUpper mode).map fun e => (e, tok)) =
      (arch.modes.findSome? fun mode => (mode.match? ts).bind fun tok =>
        (arch.table.lookup? mnemonic.toUpper mode).map fun e => (e, tok)).map
          (Prod.map id (Option.map Token.anonymous)) := by
    rw [IsLexical] at harch
    generalize arch.modes = ms at harch ⊢
    induction ms with
    | nil => rfl
    | cons m ms ih =>
      obtain ⟨hm, hms⟩ := List.forall_mem_cons.1 harch
      rw [List.findSome?_cons, List.findSome?_cons, Mode.match?_anonymous hm, ih hms]
      cases m.match? ts with
      | none => rfl
      | some tok => cases arch.table.lookup? mnemonic.toUpper m <;> rfl
  rw [recognize, recognize]
  simp only [hfind, Token.trim_anonymous, Token.join_anonymous]
  split_ifs
  · rfl
  · generalize (arch.modes.findSome? fun mode => (mode.match? ts).bind fun tok =>
      (arch.table.lookup? mnemonic.toUpper mode).map fun e => (e, tok)) = found
    cases found <;> rfl

namespace Statement

theorem splitLabels_anonymous (ts : List Token) :
    splitLabels (ts.map Token.anonymous) =
      ((splitLabels ts).1.map (Prod.map Token.anonymous Token.anonymous), (splitLabels ts).2.map Token.anonymous) := by
  induction ts using splitLabels.induct with
  | case1 => rfl
  | case2 t =>
    by_cases hspace : t.isSpace <;> simp [splitLabels, hspace]
  | case3 t u rest hspace ih =>
    simp only [List.map_cons] at ih ⊢
    rw [splitLabels, splitLabels, Token.isSpace_anonymous, if_pos hspace, if_pos hspace, ih]
  | case4 t u rest hspace hlabel _ _ _ ih =>
    have hmatch := Pattern.matchStart_anonymous (by rfl : labelPattern.isLexical) (t :: u :: rest)
    simp only [List.map_cons] at ih hmatch ⊢
    rw [splitLabels, splitLabels, Token.isSpace_anonymous, if_neg hspace, if_neg hspace, hmatch, Option.isSome_map,
      if_pos hlabel, if_pos hlabel, ih]
    rfl
  | case5 t u rest hspace hlabel =>
    have hmatch := Pattern.matchStart_anonymous (by rfl : labelPattern.isLexical) (t :: u :: rest)
    simp only [List.map_cons] at hmatch ⊢
    rw [splitLabels, splitLabels, Token.isSpace_anonymous, if_neg hspace, if_neg hspace, hmatch, Option.isSome_map,
      if_neg hlabel, if_neg hlabel]
    rfl

theorem splitValues_anonymous (ts : List Token) :
    splitValues (ts.map Token.anonymous) = (splitValues ts).map (List.map Token.anonymous) := by
  induction ts with
  | nil => rfl
  | cons t ts ih =>
    rw [List.map_cons, splitValues, splitValues, Token.isSymbol_anonymous, ih]
    split_ifs
    · rfl
    · cases splitValues ts <;> rfl

/-- What a statement yields, without the numbers of tokens. -/
def anonymous {α : Type} (f : α → α) (r : Except Diagnostic α) : Except Diagnostic α :=
  (r.map f).mapError Diagnostic.anonymous

theorem value_anonymous (line part : List Token) :
    value (line.map Token.anonymous) (part.map Token.anonymous) = anonymous Operand.anonymous (value line part) := by
  rw [value, value, Token.trim_anonymous]
  rcases Token.trim part with _ | ⟨t, _ | ⟨u, rest⟩⟩
  · rfl
  · have hunquote : t.anonymous.unquote? = t.unquote? := rfl
    simp only [List.map_cons, List.map_nil, Token.kind_anonymous, hunquote]
    split_ifs <;> rfl
  · rfl

theorem values_anonymous (line : List Token) (parts : List (List Token)) :
    values (line.map Token.anonymous) (parts.map (List.map Token.anonymous)) =
      anonymous (List.map Operand.anonymous) (values line parts) := by
  induction parts with
  | nil => rfl
  | cons part parts ih =>
    rw [List.map_cons, values, values, value_anonymous, ih]
    cases value line part with
    | error d => rfl
    | ok op => cases values line parts <;> rfl

theorem data_anonymous (directive : DataDirective) (line args : List Token) :
    data directive (line.map Token.anonymous) (args.map Token.anonymous) =
      anonymous Element.anonymous (data directive line args) := by
  rw [data, data, Token.isBlank_anonymous, splitValues_anonymous, values_anonymous]
  split_ifs
  · rfl
  · cases values line (splitValues args) <;> rfl

theorem ofPattern_anonymous {p : Pattern} (hp : p.isLexical) (place : Nat) (cause : Cause) (line : List Token)
    {make : Token → Element} (hmake : ∀ t, make t.anonymous = (make t).anonymous) :
    ofPattern p place cause (line.map Token.anonymous) make =
      anonymous Element.anonymous (ofPattern p place cause line make) := by
  have hfound : (p.matchExact (line.map Token.anonymous)).bind (·.tokens[place]?) =
      ((p.matchExact line).bind (·.tokens[place]?)).map Token.anonymous := by
    rw [Pattern.matchExact_anonymous hp, Option.bind_map, Option.map_bind]
    refine Option.bind_congr fun m _ => List.getElem?_map ..
  rw [ofPattern, ofPattern, hfound]
  cases (p.matchExact line).bind (·.tokens[place]?) with
  | none => rfl
  | some t => exact congrArg Except.ok (hmake t)

variable {arch : Architecture} (harch : arch.IsLexical)

include harch

theorem ofWord_anonymous (head : Token) (args : List Token) :
    ofWord arch head.anonymous (args.map Token.anonymous) = anonymous Element.anonymous (ofWord arch head args) := by
  have his : ∀ text : Text, head.anonymous.is text = head.is text := fun _ => rfl
  rw [ofWord, ofWord]
  simp only [Token.text_anonymous, Token.isBlank_anonymous, his, Architecture.recognize_anonymous harch]
  cases SectionKind.ofDirective? head.text with
  | some kind =>
    simp only
    split_ifs <;> rfl
  | none =>
    simp only
    split_ifs
    · exact ofPattern_anonymous (by rfl) 1 _ (head :: args) fun _ => rfl
    · exact ofPattern_anonymous (by rfl) 1 _ (head :: args) fun _ => rfl
    · cases arch.directive? head.text with
      | some directive => exact data_anonymous directive (head :: args) args
      | none => rfl
    · cases arch.directive? head.text with
      | some directive => exact data_anonymous directive (head :: args) args
      | none =>
        cases arch.recognize head.text args with
        | error e => rfl
        | ok r =>
          obtain ⟨entry, operand⟩ := r
          cases operand <;> rfl

theorem element_anonymous (head : Token) (args : List Token) :
    element arch head.anonymous (args.map Token.anonymous) = anonymous Element.anonymous (element arch head args) := by
  rw [element, element, Token.isSymbol_anonymous, Token.kind_anonymous]
  split_ifs
  · exact ofPattern_anonymous (by rfl) 2 _ (head :: args) fun _ => rfl
  · exact ofWord_anonymous harch head args
  · rfl

theorem node_anonymous (parent : Option LabelId) (head : Token) (args : List Token) :
    node arch parent head.anonymous (args.map Token.anonymous) = anonymous Node.anonymous (node arch parent head args) := by
  rw [node, node, element_anonymous harch]
  cases element arch head args with
  | error d => rfl
  | ok e => simp [anonymous, Node.anonymous, Except.map, Except.mapError]

end Statement

/-! ## Parsing -/

namespace Parse

/-- What was found in a file, without the numbers of tokens. -/
def anonymous (s : Parse) : Parse where
  labels := s.labels.anonymous
  nodes := s.nodes.map Node.anonymous
  parent := s.parent
  errors := s.errors.map Diagnostic.anonymous

theorem isDone_anonymous (s : Parse) : s.anonymous.isDone = s.isDone := by
  simp [isDone, anonymous]

theorem report_anonymous (s : Parse) (d : Diagnostic) : s.anonymous.report d.anonymous = (s.report d).anonymous := by
  rw [report, report, isDone_anonymous]
  have hlength : s.anonymous.errors.length = s.errors.length := List.length_map _
  rw [hlength]
  split_ifs
  · rfl
  · simp [anonymous]
  · simp [anonymous, Diagnostic.anonymous, Diagnostic.error]

theorem add_anonymous (s : Parse) (n : Node) : s.anonymous.add n.anonymous = (s.add n).anonymous := by
  simp [add, anonymous]

theorem label_anonymous (d : Dialect) (s : Parse) (decl : Token × Token) :
    s.anonymous.label d (Prod.map Token.anonymous Token.anonymous decl) = (s.label d decl).anonymous := by
  obtain ⟨name, colon⟩ := decl
  -- A label and a sub-label are declared in the same way, with other parents.
  have hdeclare : ∀ parent after : Option LabelId,
      ({ s.anonymous with
        labels := s.anonymous.labels.add { name := name.text, parent, token := name.anonymous }
        parent := after } : Parse).add
          { tokens := [name.anonymous, colon.anonymous], element := .label s.labels.size } =
      (({ s with labels := s.labels.add { name := name.text, parent, token := name }, parent := after } : Parse).add
        { tokens := [name, colon], element := .label s.labels.size }).anonymous := by
    intro parent after
    rw [← add_anonymous, anonymous, anonymous, ← LabelTable.add_anonymous]
    rfl
  have hparent : s.anonymous.parent = s.parent := rfl
  have hsize : s.anonymous.labels.size = s.labels.size := s.labels.size_anonymous
  rw [label, label]
  simp only [Prod.map_apply, Token.text_anonymous, hparent, hsize]
  split_ifs
  · cases s.parent with
    | none => exact report_anonymous s (.error .subLabelOrphan [name, colon])
    | some parent => exact hdeclare (some parent) (some parent)
  · exact hdeclare none (some s.labels.size)

theorem foldl_label_anonymous (d : Dialect) (s : Parse) (decls : List (Token × Token)) :
    (decls.map (Prod.map Token.anonymous Token.anonymous)).foldl (label d) s.anonymous =
      (decls.foldl (label d) s).anonymous := by
  induction decls generalizing s with
  | nil => rfl
  | cons decl decls ih => rw [List.map_cons, List.foldl_cons, List.foldl_cons, label_anonymous, ih]

variable {arch : Architecture} (harch : arch.IsLexical)

include harch

/-- The parser does not see the numbers of tokens. -/
theorem line_anonymous (s : Parse) (ts : List Token) :
    s.anonymous.line arch (ts.map Token.anonymous) = (s.line arch ts).anonymous := by
  rw [line, line, Token.trimRight_anonymous, Statement.splitLabels_anonymous]
  simp only [foldl_label_anonymous]
  generalize (Statement.splitLabels (Token.trimRight ts)).1.foldl (label arch.dialect) s = after
  cases (Statement.splitLabels (Token.trimRight ts)).2 with
  | nil => rfl
  | cons head args =>
    have hparent : after.anonymous.parent = after.parent := rfl
    simp only [List.map_cons, hparent, Statement.node_anonymous harch]
    cases Statement.node arch after.parent head args with
    | ok n => exact add_anonymous after n
    | error d => exact report_anonymous after d

omit harch in
theorem bundle_anonymous (kind : SectionKind) (nodes : List Node) :
    bundle kind (nodes.map Node.anonymous) =
      ((bundle kind nodes).1.map Node.anonymous, (bundle kind nodes).2.1.map Section.anonymous,
        (bundle kind nodes).2.2.map Diagnostic.anonymous) := by
  induction nodes generalizing kind with
  | nil => rfl
  | cons n nodes ih =>
    have helement : n.anonymous.element = n.element.anonymous := rfl
    rw [List.map_cons, bundle, bundle, helement]
    cases hn : n.element with
    | sectionStart next =>
      simp only [Element.anonymous, ih]
      rfl
    | _ =>
      simp only [Element.anonymous, ih, Node.kind_anonymous]
      split_ifs <;> rfl

omit harch in
theorem sections_anonymous (nodes : List Node) :
    sections (nodes.map Node.anonymous) =
      ((sections nodes).1.map Section.anonymous, (sections nodes).2.map Diagnostic.anonymous) := by
  rw [sections, sections, bundle_anonymous]
  simp only [List.isEmpty_map]
  split_ifs <;> rfl

end Parse

/-! ## Linking -/

namespace Section

/-- Nodes are rebuilt alike by a step that does not see numbers. -/
theorem rebuild_anonymous {σ : Type} {step : σ → Node → σ × Option Node} {g : σ → σ}
    (hstep : ∀ s n, step (g s) n.anonymous = Prod.map g (Option.map Node.anonymous) (step s n)) (s : σ)
    (secs : List Section) :
    rebuild step (g s) (secs.map anonymous) = Prod.map g (List.map anonymous) (rebuild step s secs) := by
  -- First for the statements of a section, then for the sections.
  have hnodes : ∀ (ns : List Node) (s : σ), rebuild.nodes step (g s) (ns.map Node.anonymous) =
      Prod.map g (List.map Node.anonymous) (rebuild.nodes step s ns) := by
    intro ns
    induction ns with
    | nil => exact fun _ => rfl
    | cons n ns ih =>
      intro s
      rw [List.map_cons, rebuild.nodes, rebuild.nodes, hstep]
      simp only [Prod.map_fst, Prod.map_snd, ih]
      simp [Option.toList_map]
  induction secs generalizing s with
  | nil => rfl
  | cons sec secs ih =>
    have hnodes' := hnodes sec.nodes s
    have heq : sec.anonymous.nodes = sec.nodes.map Node.anonymous := rfl
    rw [List.map_cons, rebuild, rebuild, heq, hnodes']
    simp only [Prod.map_fst, Prod.map_snd, ih]
    rfl

theorem rebuild_eq {σ : Type} {step : σ → Node → σ × Option Node} {g : σ → σ}
    (hstep : ∀ s n, step (g s) n.anonymous = Prod.map g (Option.map Node.anonymous) (step s n)) {s s' : σ}
    {secs secs' : List Section} (hs : g s = g s') (hsecs : secs.map anonymous = secs'.map anonymous) :
    g (rebuild step s secs).1 = g (rebuild step s' secs').1 ∧
      (rebuild step s secs).2.map anonymous = (rebuild step s' secs').2.map anonymous := by
  have hmap := rebuild_anonymous hstep s secs
  rw [hs, hsecs, rebuild_anonymous hstep s' secs'] at hmap
  exact ⟨(congrArg Prod.fst hmap).symm, (congrArg Prod.snd hmap).symm⟩

end Section

namespace Link

/-- The state of the search for duplicates, without the numbers of tokens. -/
def Duplicates.anonymous (s : Duplicates) : Duplicates where
  labels := s.labels.anonymous
  seen := s.seen
  moved := s.moved
  diagnostics := s.diagnostics.map Diagnostic.anonymous

/-- The state of the resolution of references, without the numbers of tokens. -/
def References.anonymous (s : References) : References where
  labels := s.labels.anonymous
  diagnostics := s.diagnostics.map Diagnostic.anonymous

theorem dropDuplicate_anonymous (s : Duplicates) (n : Node) :
    dropDuplicate s.anonymous n.anonymous =
      Prod.map Duplicates.anonymous (Option.map Node.anonymous) (dropDuplicate s n) := by
  obtain ⟨tokens, element, scope, address⟩ := n
  have hcurrent : ∀ id, s.anonymous.current id = s.current id := fun _ => rfl
  have hlabels : s.anonymous.labels = s.labels.anonymous := rfl
  have hseen : s.anonymous.seen = s.seen := rfl
  cases element with
  | label id =>
    simp only [dropDuplicate, Node.anonymous, Element.anonymous, hcurrent, hlabels, hseen, LabelTable.get?_anonymous]
    cases s.labels.get? id with
    | none => rfl
    | some l =>
      have hparent : l.anonymous.parent = l.parent := rfl
      have hname : l.anonymous.name = l.name := rfl
      have hmoved := s.labels.modify_anonymous (f := fun k => { k with parent := s.current l.parent }) (fun _ => rfl) id
      have hdropped := fun t : LabelTable =>
        t.modify_anonymous (f := fun k => { k with dropped := true }) (fun _ => rfl) id
      simp only [Option.map_some, hparent, hname, hmoved, hdropped]
      cases s.seen.lookup (s.current l.parent, l.name) with
      | none => rfl
      | some first => simp [Duplicates.anonymous, Diagnostic.anonymous, Diagnostic.error]
  | _ => rfl

theorem bind_anonymous (d : Dialect) (labels : LabelTable) (scope : Option LabelId) (op : Operand) :
    bind d labels.anonymous scope op.anonymous = (bind d labels scope op).anonymous := by
  rw [bind, bind, LabelTable.resolve?_anonymous]
  rfl

theorem missing?_anonymous (op : Operand) : missing? op.anonymous = (missing? op).map Diagnostic.anonymous := by
  have hword : op.anonymous.isWord = op.isWord := rfl
  have href : op.anonymous.ref = op.ref := rfl
  rw [missing?, missing?, hword, href]
  split_ifs <;> rfl

/-- A node with its operands bound, and what is wrong with them. -/
def refer (arch : Architecture) (s : References) (n : Node) : References × Option Node :=
  let e := n.element.mapOperands (bind arch.dialect s.labels n.scope)
  let reported :=
    if arch.symbolicData && e.kind == .initializedData then [] else e.operands.filterMap missing?
  ({ s with diagnostics := s.diagnostics ++ reported }, some { n with element := e })

theorem refer_anonymous (arch : Architecture) (s : References) (n : Node) :
    refer arch s.anonymous n.anonymous = Prod.map References.anonymous (Option.map Node.anonymous) (refer arch s n) := by
  have hbound : n.anonymous.element.mapOperands (bind arch.dialect s.anonymous.labels n.anonymous.scope) =
      (n.element.mapOperands (bind arch.dialect s.labels n.scope)).anonymous :=
    n.element.mapOperands_anonymous (bind_anonymous arch.dialect s.labels n.scope)
  have hmissing : ∀ e : Element, e.anonymous.operands.filterMap missing? =
      (e.operands.filterMap missing?).map Diagnostic.anonymous := by
    intro e
    rw [Element.operands_anonymous, List.filterMap_map, List.map_filterMap]
    exact List.filterMap_congr fun op _ => missing?_anonymous op
  rw [refer, refer, hbound, hmissing, Element.kind_anonymous]
  split_ifs <;> simp [References.anonymous, Node.anonymous]

theorem resolve_anonymous (arch : Architecture) (s : References) (n : Node) :
    resolve arch s.anonymous n.anonymous =
      Prod.map References.anonymous (Option.map Node.anonymous) (resolve arch s n) := by
  -- Instructions and data are resolved by `refer`; the cases are split on the element itself, so that it computes.
  have hrefer := refer_anonymous arch s n
  have helement : n.anonymous.element = n.element.anonymous := rfl
  rw [refer, refer, helement] at hrefer
  rw [resolve, resolve, helement]
  cases hn : n.element with
  | global found name =>
    have hlabels : s.anonymous.labels = s.labels.anonymous := rfl
    have htext : name.anonymous.token.text = name.token.text := rfl
    simp only [Element.anonymous, hlabels, LabelTable.resolve?_anonymous, htext]
    cases s.labels.resolve? arch.dialect none name.token.text with
    | none => simp [References.anonymous, Node.anonymous, Diagnostic.anonymous, Diagnostic.error]
    | some id =>
      have hglobal := s.labels.modify_anonymous (f := fun l => { l with global := true }) (fun _ => rfl) id
      simp only [hglobal]
      rfl
  | instruction mnemonic mode operand =>
    rw [hn] at hrefer
    exact hrefer
  | data directive values =>
    rw [hn] at hrefer
    exact hrefer
  | _ => rfl

end Link

/-! ## Layout -/

theorem AssemblyError.at_anonymous (n : Node) (cause : EncodeError) : .at n.anonymous cause = AssemblyError.at n cause := by
  rw [AssemblyError.at, AssemblyError.at, Node.loc_anonymous, Node.text_anonymous]

namespace Layout

/-- A layout without the numbers of tokens. -/
def anonymous (s : Layout) : Layout where
  next := s.next
  labels := s.labels.anonymous
  placed := s.placed.map Node.anonymous
  pending := s.pending.map Node.anonymous
  errors := s.errors

theorem moveLabel_anonymous (labels : LabelTable) (n : Node) (addr : UInt64) :
    moveLabel labels.anonymous n.anonymous addr = (moveLabel labels n addr).anonymous := by
  have helement : n.anonymous.element = n.element.anonymous := rfl
  have haddress : n.anonymous.address = n.address := rfl
  rw [moveLabel, moveLabel, helement, haddress]
  cases n.element with
  | label id =>
    refine labels.modify_anonymous (fun l => ?_) id
    have hl : l.anonymous.address = l.address := rfl
    simp only [hl]
    split_ifs <;> rfl
  | _ => rfl

theorem align_anonymous (s : Layout) (size : UInt64) : s.anonymous.align size = (s.align size).anonymous := by
  have hfold : ∀ (ns : List Node) (labels : LabelTable) (addr : UInt64),
      (ns.map Node.anonymous).foldl (fun labels n => moveLabel labels n addr) labels.anonymous =
        (ns.foldl (fun labels n => moveLabel labels n addr) labels).anonymous := by
    intro ns
    induction ns with
    | nil => exact fun _ _ => rfl
    | cons n ns ih =>
      intro labels addr
      rw [List.map_cons, List.foldl_cons, List.foldl_cons, moveLabel_anonymous, ih]
  simp only [align, anonymous, hfold, List.map_map]
  rfl

theorem advance_anonymous (arch : Architecture) (s : Layout) (n : Node) :
    s.anonymous.advance arch n.anonymous = (s.advance arch n).anonymous := by
  have helement : n.anonymous.element = n.element.anonymous := rfl
  rw [advance, advance, helement]
  cases n.element with
  | setPc value =>
    have hvalue : value.anonymous.valueIn arch.dialect = value.valueIn arch.dialect := rfl
    simp only [Element.anonymous, hvalue, AssemblyError.at_anonymous]
    cases value.valueIn arch.dialect <;> rfl
  | data directive values =>
    have halignment := (Element.data directive values).alignment?_anonymous
    simp only [Element.anonymous] at halignment ⊢
    rw [halignment]
    cases (Element.data directive values).alignment? with
    | none => rfl
    | some size => exact s.align_anonymous size
  | reserve directive count =>
    simp only [Element.anonymous]
    cases (Element.reserve directive count).alignment? with
    | none => rfl
    | some size => exact s.align_anonymous size
  | _ => rfl

theorem step_anonymous (arch : Architecture) (s : Layout) (n : Node) :
    s.anonymous.step arch n.anonymous = (s.step arch n).anonymous := by
  -- The address of a node is chosen before the node is looked at, so the node is named only once it is placed.
  have hplace : ∀ addr, n.anonymous.place addr = (n.place addr).anonymous := fun _ => rfl
  have hnext : (s.advance arch n).anonymous.next = (s.advance arch n).next := rfl
  rw [step, step, advance_anonymous]
  simp only [hplace, hnext, Node.size_anonymous]
  generalize s.advance arch n = after
  generalize n.place after.next = m
  have helement : m.anonymous.element = m.element.anonymous := rfl
  have haddr : m.anonymous.addr = m.addr := rfl
  rw [helement, haddr]
  cases m.element with
  | label id =>
    have hplaced := after.labels.modify_anonymous (f := fun l => { l with address := some (l.address.getD m.addr) })
      (fun _ => rfl) id
    exact congrArg (fun labels => Layout.mk _ labels _ _ _) hplaced
  | _ => simp [Element.anonymous, anonymous]

theorem run_anonymous (arch : Architecture) (origin : UInt64) (labels : LabelTable) (ns : List Node) :
    run arch origin labels.anonymous (ns.map Node.anonymous) = (run arch origin labels ns).anonymous := by
  have hfold : ∀ (ns : List Node) (s : Layout),
      (ns.map Node.anonymous).foldl (step arch) s.anonymous = (ns.foldl (step arch) s).anonymous := by
    intro ns
    induction ns with
    | nil => exact fun _ => rfl
    | cons n ns ih =>
      intro s
      rw [List.map_cons, List.foldl_cons, List.foldl_cons, step_anonymous, ih]
  exact hfold ns { next := origin &&& arch.addressMask, labels }

theorem nodes_anonymous (s : Layout) : s.anonymous.nodes = s.nodes.map Node.anonymous := by
  simp [nodes, anonymous]

end Layout

theorem Section.refill_anonymous (secs : List Section) (ns : List Node) :
    refill (secs.map anonymous) (ns.map Node.anonymous) = (refill secs ns).map anonymous := by
  induction secs generalizing ns with
  | nil => rfl
  | cons sec secs ih =>
    have hlength : sec.anonymous.nodes.length = sec.nodes.length := List.length_map _
    rw [List.map_cons, refill, refill, hlength, ← List.map_drop, ih, ← List.map_take]
    rfl

/-! ## Encoding -/

namespace Encoding

/-- The same encoding, with labels without the numbers of tokens. -/
def anonymous (enc : Encoding) : Encoding := { enc with labels := enc.labels.anonymous }

variable (enc : Encoding)

theorem value_anonymous (op : Operand) : enc.anonymous.value op.anonymous = enc.value op := by
  have hword : op.anonymous.isWord = op.isWord := rfl
  have href : op.anonymous.ref = op.ref := rfl
  have hlabels : enc.anonymous.labels = enc.labels.anonymous := rfl
  have haddress : ∀ id, (enc.labels.anonymous.get? id).bind Label.address = (enc.labels.get? id).bind Label.address := by
    intro id
    rw [LabelTable.get?_anonymous, Option.bind_map]
    rfl
  rw [value, value, hword, href, hlabels]
  simp only [haddress]
  rfl

theorem instruction_anonymous (addr : UInt64) (mnemonic : Text) (mode : Mode) (operand : Option Operand) :
    enc.anonymous.instruction addr mnemonic mode (operand.map Operand.anonymous) =
      enc.instruction addr mnemonic mode operand := by
  cases operand with
  | none => rfl
  | some op =>
    have hvalue := enc.value_anonymous op
    rw [instruction, instruction, Option.map_some]
    simp only [hvalue]
    rfl

theorem valueBytes_anonymous (size : Nat) (op : Operand) :
    enc.anonymous.valueBytes size op.anonymous = enc.valueBytes size op := by
  rw [valueBytes, valueBytes, value_anonymous]
  rfl

theorem valuesBytes_anonymous (size : Nat) (ops : List Operand) :
    enc.anonymous.valuesBytes size (ops.map Operand.anonymous) = enc.valuesBytes size ops := by
  induction ops with
  | nil => rfl
  | cons op ops ih => rw [List.map_cons, valuesBytes, valuesBytes, valueBytes_anonymous, ih]

theorem data_anonymous (addr : UInt64) (directive : DataDirective) (ops : List Operand) :
    enc.anonymous.data addr directive (ops.map Operand.anonymous) = enc.data addr directive ops := by
  rw [data, data, valuesBytes_anonymous, List.map_map]
  rfl

/-- What a statement contributes does not depend on the numbers of tokens. -/
theorem emit?_anonymous (n : Node) : enc.anonymous.emit? n.anonymous = enc.emit? n := by
  have helement : n.anonymous.element = n.element.anonymous := rfl
  have haddr : n.anonymous.addr = n.addr := rfl
  have hlabels : enc.anonymous.labels = enc.labels.anonymous := rfl
  rw [emit?, emit?, helement]
  simp only [haddr, hlabels, Node.loc_anonymous, Node.size_anonymous, LabelTable.namesAt_anonymous,
    AssemblyError.at_anonymous]
  cases n.element with
  | instruction mnemonic mode operand => simp only [Element.anonymous, instruction_anonymous]
  | data directive values => simp only [Element.anonymous, data_anonymous]
  | _ => rfl

end Encoding

/-! ## Trees -/

theorem Diagnostic.gist_anonymous (d : Diagnostic) : d.anonymous.gist = d.gist := by
  rw [gist, gist, loc, loc]
  exact congrArg _ (congrArg _ (Token.firstLoc_anonymous d.tokens))

theorem Diagnostic.map_gist_eq {ds es : List Diagnostic} (h : ds.map anonymous = es.map anonymous) :
    ds.map gist = es.map gist := by
  have hgist : ∀ ds : List Diagnostic, (ds.map anonymous).map gist = ds.map gist := by
    intro ds
    rw [List.map_map]
    exact List.map_congr_left fun d _ => d.gist_anonymous
  rw [← hgist ds, h, hgist]

/-- Trees with the same sections and labels up to the numbers of tokens, for which the same was reported at the same
places. -/
structure Tree.Agrees (t u : Tree) : Prop where
  sections : t.sections.map Section.anonymous = u.sections.map Section.anonymous
  labels : t.labels.anonymous = u.labels.anonymous
  gists : t.diagnostics.map Diagnostic.gist = u.diagnostics.map Diagnostic.gist

namespace Tree

theorem map_nodes_anonymous (t : Tree) :
    t.nodes.map Node.anonymous = (t.sections.map Section.anonymous).flatMap Section.nodes := by
  rw [nodes, List.map_flatMap, List.flatMap_map]
  rfl

namespace Agrees

variable {t u : Tree}

theorem nodes (h : t.Agrees u) : t.nodes.map Node.anonymous = u.nodes.map Node.anonymous := by
  rw [map_nodes_anonymous, map_nodes_anonymous, h.sections]

/-- Whether there are errors is told by what was reported. -/
theorem errors_isEmpty (h : t.Agrees u) : t.errors.isEmpty = u.errors.isEmpty := by
  have herrors : ∀ ds : List Diagnostic,
      (ds.filter Diagnostic.isError).isEmpty = !(ds.map Diagnostic.gist).any fun g => g.1 == .error := by
    intro ds
    induction ds with
    | nil => rfl
    | cons d ds ih =>
      rw [List.filter_cons, List.map_cons, List.any_cons, Bool.not_or, ← ih]
      change _ = (!d.isError && _)
      cases d.isError <;> rfl
  rw [errors, errors, herrors, herrors, h.gists]

theorem graft (h : t.Agrees u) (other : Tree) : (t.graft other).Agrees (u.graft other) := by
  -- Grafted labels are numbered from the number of labels on, which is the same for both trees.
  have hsize : t.labels.size = u.labels.size := by
    rw [← LabelTable.size_anonymous, h.labels, LabelTable.size_anonymous]
  have hlabels : t.labels.labels.map Label.anonymous = u.labels.labels.map Label.anonymous :=
    congrArg LabelTable.labels h.labels
  refine ⟨?_, congrArg LabelTable.mk ?_, h.gists⟩
  · simp only [Tree.graft, List.map_append, h.sections, hsize]
  · simp only [Tree.graft, List.map_append, hlabels, hsize]

theorem foldl_graft (h : t.Agrees u) (others : List Tree) :
    (others.foldl Tree.graft t).Agrees (others.foldl Tree.graft u) := by
  induction others generalizing t u with
  | nil => exact h
  | cons other others ih => exact ih (h.graft other)

/-- Trees that agree are linked alike. -/
theorem link (h : t.Agrees u) (arch : Architecture) : (t.link arch).Agrees (u.link arch) := by
  have hstart : ({ labels := t.labels } : Link.Duplicates).anonymous =
      ({ labels := u.labels } : Link.Duplicates).anonymous := by
    rw [Link.Duplicates.anonymous, Link.Duplicates.anonymous, h.labels]
  obtain ⟨hdup, hkept⟩ := Section.rebuild_eq Link.dropDuplicate_anonymous hstart h.sections
  rw [Tree.link, Tree.link]
  generalize Section.rebuild Link.dropDuplicate { labels := t.labels } t.sections = a at hdup hkept ⊢
  generalize Section.rebuild Link.dropDuplicate { labels := u.labels } u.sections = b at hdup hkept ⊢
  have hmiddle : ({ labels := a.1.labels } : Link.References).anonymous =
      ({ labels := b.1.labels } : Link.References).anonymous :=
    congrArg (fun labels => Link.References.mk labels []) (congrArg Link.Duplicates.labels hdup)
  obtain ⟨hrefs, hsections⟩ := Section.rebuild_eq (Link.resolve_anonymous arch) hmiddle hkept
  refine ⟨hsections, congrArg Link.References.labels hrefs, ?_⟩
  have hduplicates := Diagnostic.map_gist_eq (congrArg Link.Duplicates.diagnostics hdup)
  have hmissing := Diagnostic.map_gist_eq (congrArg Link.References.diagnostics hrefs)
  simp only [Tree.report, List.map_append, h.gists, hduplicates, hmissing]

/-- Trees that agree are laid out alike. -/
theorem layout (h : t.Agrees u) (arch : Architecture) (origin : UInt64) :
    (t.layout arch origin).1.Agrees (u.layout arch origin).1 ∧
      (t.layout arch origin).2 = (u.layout arch origin).2 := by
  have hrun : (Layout.run arch origin t.labels t.nodes).anonymous =
      (Layout.run arch origin u.labels u.nodes).anonymous := by
    rw [← Layout.run_anonymous, h.labels, h.nodes, Layout.run_anonymous]
  have hnodes : (Layout.run arch origin t.labels t.nodes).nodes.map Node.anonymous =
      (Layout.run arch origin u.labels u.nodes).nodes.map Node.anonymous := by
    rw [← Layout.nodes_anonymous, hrun, Layout.nodes_anonymous]
  have herrors : (Layout.run arch origin t.labels t.nodes).anonymous.errors =
      (Layout.run arch origin u.labels u.nodes).anonymous.errors := congrArg Layout.errors hrun
  refine ⟨⟨?_, congrArg Layout.labels hrun, h.gists⟩, herrors⟩
  rw [Tree.layout, Tree.layout, ← Section.refill_anonymous, h.sections, hnodes, Section.refill_anonymous]

/-- Trees that agree are assembled into the same program, with the same errors. -/
theorem assemble (h : t.Agrees u) (arch : Architecture) (origin : UInt64) (wrapBranches : Bool) (memory : Memory) :
    (t.assemble arch origin wrapBranches memory).program = (u.assemble arch origin wrapBranches memory).program ∧
      (t.assemble arch origin wrapBranches memory).errors = (u.assemble arch origin wrapBranches memory).errors := by
  obtain ⟨hlayout, herrors⟩ := h.layout arch origin
  -- What a laid-out tree emits is a function of its nodes and labels without numbers.
  have hemit : ∀ v : Tree, v.nodes.filterMap ({ arch, wrapBranches, labels := v.labels : Encoding }).emit? =
      (v.nodes.map Node.anonymous).filterMap ({ arch, wrapBranches, labels := v.labels.anonymous : Encoding }).emit? := by
    intro v
    rw [List.filterMap_map]
    exact List.filterMap_congr fun n _ => (Encoding.emit?_anonymous ⟨arch, wrapBranches, v.labels⟩ n).symm
  have hemitted : (t.layout arch origin).1.nodes.filterMap
        ({ arch, wrapBranches, labels := (t.layout arch origin).1.labels : Encoding }).emit? =
      (u.layout arch origin).1.nodes.filterMap
        ({ arch, wrapBranches, labels := (u.layout arch origin).1.labels : Encoding }).emit? := by
    rw [hemit, hlayout.nodes, hlayout.labels, ← hemit]
  simp only [Tree.assemble, hemitted, herrors, and_self]

end Agrees

end Tree

end EightBit
