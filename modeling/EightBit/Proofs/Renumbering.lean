import Mathlib
import EightBit.Proofs.MacroLabel

/-!
# Tokens up to their numbers

The passes of the preprocessor never ask for the number of a token. So for two token streams that differ in
numbers only they yield the same tokens up to numbers, import the same files and report the same problems.

* `Token.anonymous`: a token without its number; it goes through all that the passes do with tokens.
* `Preprocess.Output.Agrees`: outputs that differ in numbers only, as far as they are told by tokens, imports
  and reports.
* `Preprocessed.Agrees.step`: a pass keeps the agreement of two files; `Preprocessed.Agrees.foldl`: so do passes
  one after the other.
-/

namespace EightBit

namespace Token

/-- A token without its number. -/
def anonymous (t : Token) : Token := { t with id := 0 }

@[simp] theorem kind_anonymous (t : Token) : t.anonymous.kind = t.kind := rfl

@[simp] theorem text_anonymous (t : Token) : t.anonymous.text = t.text := rfl

@[simp] theorem loc_anonymous (t : Token) : t.anonymous.loc = t.loc := rfl

@[simp] theorem isSpace_anonymous (t : Token) : t.anonymous.isSpace = t.isSpace := rfl

@[simp] theorem isNewline_anonymous (t : Token) : t.anonymous.isNewline = t.isNewline := rfl

@[simp] theorem isSymbol_anonymous (t : Token) (text : Text) : t.anonymous.isSymbol text = t.isSymbol text := rfl

@[simp] theorem anonymous_anonymous (t : Token) : t.anonymous.anonymous = t.anonymous := rfl

@[simp] theorem anonymous_comp_anonymous : anonymous ∘ anonymous = anonymous := rfl

section Runs

variable (ts : List Token)

@[simp] theorem takeWhile_isSpace_anonymous :
    (ts.map anonymous).takeWhile isSpace = (ts.takeWhile isSpace).map anonymous :=
  List.takeWhile_map

@[simp] theorem dropWhile_isSpace_anonymous :
    (ts.map anonymous).dropWhile isSpace = (ts.dropWhile isSpace).map anonymous :=
  List.dropWhile_map

@[simp] theorem trimRight_anonymous : trimRight (ts.map anonymous) = (trimRight ts).map anonymous := by
  rw [trimRight, trimRight, ← List.map_reverse, dropWhile_isSpace_anonymous, List.map_reverse]

@[simp] theorem trim_anonymous : trim (ts.map anonymous) = (trim ts).map anonymous := by
  rw [trim, trim, dropWhile_isSpace_anonymous, trimRight_anonymous]

theorem map_anonymous_anonymous : (ts.map anonymous).map anonymous = ts.map anonymous := by simp

@[simp] theorem isBlank_anonymous : isBlank (ts.map anonymous) = isBlank ts := List.all_map

theorem join_map {f : Token → Token} (hf : ∀ t, (f t).text = t.text) : join (ts.map f) = join ts := by
  rw [join, join, List.flatMap_map]
  exact congrArg ts.flatMap (funext hf)

@[simp] theorem join_anonymous : join (ts.map anonymous) = join ts := join_map ts fun _ => rfl

theorem firstLoc_anonymous : firstLoc (ts.map anonymous) = firstLoc ts := by
  cases ts <;> rfl

end Runs

end Token

/-! ## Lines and patterns -/

/-- A line without the numbers of its tokens. -/
def Line.anonymous (l : Line) : Line := ⟨l.tokens.map Token.anonymous, l.newline.map Token.anonymous⟩

namespace Line

@[simp] theorem tokens_anonymous (l : Line) : l.anonymous.tokens = l.tokens.map Token.anonymous := rfl

@[simp] theorem newline_anonymous (l : Line) : l.anonymous.newline = l.newline.map Token.anonymous := rfl

@[simp] theorem all_anonymous (l : Line) : l.anonymous.all = l.all.map Token.anonymous := by
  simp [all, Option.toList_map]

theorem ofTokens_anonymous (ts : List Token) :
    ofTokens (ts.map Token.anonymous) = (ofTokens ts).map anonymous := by
  induction ts with
  | nil => rfl
  | cons t ts ih =>
    by_cases ht : t.isNewline
    · simp [ofTokens, ht, ih, anonymous]
    · cases hts : ofTokens ts <;> simp [ofTokens, ht, ih, hts, anonymous]

end Line

/-- Only the component for substituted tokens asks for numbers. -/
theorem Component.accepts_anonymous {c : Component} (hc : c.isLexical) (t : Token) :
    c.accepts t.anonymous = c.accepts t := by
  induction c with
  | either first second hfirst hsecond =>
    simp only [isLexical, Bool.and_eq_true] at hc
    rw [accepts, accepts, hfirst hc.1, hsecond hc.2]
  | synthetic => simp [isLexical] at hc
  | _ => rfl

/-- A match without the numbers of its tokens. -/
def Match.anonymous (m : Match) : Match := { m with tokens := m.tokens.map Token.anonymous }

namespace Pattern

/-- Whether a pattern looks at nothing but tokens' kinds, texts and values. -/
def isLexical (p : Pattern) : Bool := p.components.all Component.isLexical

theorem ignored_anonymous (skip : Bool) (ts : List Token) :
    ignored skip (ts.map Token.anonymous) = ignored skip ts := by
  simp [ignored]

theorem take?_anonymous (skip : Bool) {cs : List Component} (hcs : ∀ c ∈ cs, c.isLexical) (ts : List Token) :
    take? skip cs (ts.map Token.anonymous) =
      (take? skip cs ts).map fun (n, matched) => (n, matched.map Token.anonymous) := by
  induction cs generalizing ts with
  | nil => rfl
  | cons c cs ih =>
    simp only [take?, ignored_anonymous, ← List.map_drop]
    cases ts.drop (ignored skip ts) with
    | nil => rfl
    | cons t rest =>
      simp only [List.map_cons, Component.accepts_anonymous (hcs c List.mem_cons_self)]
      split_ifs
      · rw [ih fun k hk => hcs k (List.mem_cons_of_mem c hk)]
        simp [Function.comp_def]
      · rfl

variable {p : Pattern} (hp : p.isLexical) (ts : List Token)

include hp

theorem matchStart_anonymous : p.matchStart (ts.map Token.anonymous) = (p.matchStart ts).map Match.anonymous := by
  rw [matchStart, matchStart, take?_anonymous _ (List.all_eq_true.1 hp)]
  simp [Match.anonymous, Function.comp_def]

theorem matchExact_anonymous : p.matchExact (ts.map Token.anonymous) = (p.matchExact ts).map Match.anonymous := by
  rw [matchExact, matchExact, matchStart_anonymous hp, Option.filter_map]
  simp [Match.anonymous, Function.comp_def, ignored_anonymous, ← List.map_drop]

theorem matchAnywhere_anonymous :
    p.matchAnywhere (ts.map Token.anonymous) = (p.matchAnywhere ts).map Match.anonymous := by
  induction ts with
  | nil => rfl
  | cons t ts ih =>
    have hstart := matchStart_anonymous hp (t :: ts)
    have hstarts : p.startsOn t.anonymous = p.startsOn t := rfl
    rw [List.map_cons] at hstart ⊢
    rw [matchAnywhere, matchAnywhere, hstarts, hstart, ih]
    split_ifs
    · cases p.matchStart (t :: ts) with
      | some m => rfl
      | none => simp [Match.shift, Match.anonymous, Function.comp_def]
    · simp [Match.shift, Match.anonymous, Function.comp_def]

end Pattern

/-! ## Expressions and substituted texts -/

namespace Token

/-- A bracketed operation with its tokens changed. -/
def Redex.map (f : Token → Token) (r : Redex) : Redex where
  left := f r.left
  op := r.op
  right := f r.right
  opening := f r.opening
  span := r.span.map f

/-- A change of tokens that makes no difference to reduction: it keeps kinds and texts, and changes an expression as
it changes the tokens of its operation. -/
structure IsInert (d : Dialect) (f : Token → Token) : Prop where
  kind : ∀ t, (f t).kind = t.kind
  text : ∀ t, (f t).text = t.text
  token : ∀ (r : Redex) (t : Token), (r.map f).token d (f t) = f (r.token d t)

section Inert

variable {d : Dialect} {f : Token → Token} (hf : IsInert d f)

include hf

theorem isSpace_comp : isSpace ∘ f = isSpace := by
  funext t
  rw [Function.comp_apply, isSpace, isSpace, hf.kind]

theorem popVisible_map (stack : List Token) :
    popVisible (stack.map f) =
      (popVisible stack).map fun (t, span, below) => (f t, span.map f, below.map f) := by
  rw [popVisible, popVisible, List.dropWhile_map, List.takeWhile_map, isSpace_comp hf]
  cases stack.dropWhile isSpace <;> simp

theorem redex?_map (stack : List Token) :
    redex? (stack.map f) = (redex? stack).map fun (r, below) => (r.map f, below.map f) := by
  simp only [redex?, popVisible_map hf, beq_iff_eq, List.append_assoc, Option.pure_def, Option.bind_eq_bind,
    Option.bind_map, Function.comp_apply, hf.kind, hf.text, Redex.map, Option.map_bind, Option.map_some,
    List.map_append]

theorem shift_map (stack : List Token) (t : Token) : shift d (stack.map f) (f t) = (shift d stack t).map f := by
  rw [shift, shift, hf.text, redex?_map hf]
  split_ifs
  · cases redex? stack with
    | none => rfl
    | some r => simp [hf.token]
  · rfl

theorem reduce_map (ts : List Token) : reduce d (ts.map f) = (reduce d ts).map f := by
  have hfold : ∀ stack : List Token, (ts.map f).foldl (shift d) (stack.map f) = (ts.foldl (shift d) stack).map f := by
    induction ts with
    | nil => exact fun stack => rfl
    | cons t ts ih =>
      intro stack
      rw [List.map_cons, List.foldl_cons, List.foldl_cons, shift_map hf, ih]
  have hstart := hfold []
  rw [List.map_nil] at hstart
  rw [reduce, reduce, hstart, List.map_reverse]

end Inert

/-- An expression has the number of its bracket, so that its number comes from the tokens' numbers only. -/
theorem isInert_anonymous (d : Dialect) : IsInert d anonymous where
  kind _ := rfl
  text _ := rfl
  token r t := by
    have hjoin : join (r.span.map anonymous ++ [t.anonymous]) = join (r.span ++ [t]) := by simp
    simp only [Redex.token, Redex.map, hjoin]
    rfl

theorem reduce_anonymous (d : Dialect) (ts : List Token) :
    reduce d (ts.map anonymous) = (reduce d ts).map anonymous :=
  reduce_map (isInert_anonymous d) ts

theorem pinned_anonymous (loc : Location) (ctx : Context) (lexemes : List Lexeme) :
    (Scan.pinned loc ctx lexemes).1.map anonymous =
      lexemes.map fun l => { kind := l.kind, text := l.text, loc } := by
  induction lexemes generalizing ctx with
  | nil => rfl
  | cons l lexemes ih =>
    rw [Scan.pinned, List.map_cons, List.map_cons, ← ih ctx.nextSynthetic.2]
    rfl

/-- The counters only number the tokens of a substituted text. -/
theorem pseudoTokenize_anonymous (d : Dialect) (ctx ctx' : Context) (text : Text) (loc : Location) :
    (pseudoTokenize d ctx text loc).1.error = (pseudoTokenize d ctx' text loc).1.error ∧
      (pseudoTokenize d ctx text loc).1.tokens.map anonymous =
        (pseudoTokenize d ctx' text loc).1.tokens.map anonymous := by
  refine ⟨rfl, ?_⟩
  simp only [pseudoTokenize, Scanned.ofTokens]
  split_ifs
  · rw [← reduce_anonymous, ← reduce_anonymous, pinned_anonymous, pinned_anonymous]
  · rw [pinned_anonymous, pinned_anonymous]

end Token

/-- A macro without the numbers of its tokens. -/
def Macro.anonymous (m : Macro) : Macro := { m with body := m.body.map Token.anonymous }

/-! ## Outputs -/

/-- What a diagnostic tells without its tokens. -/
def Diagnostic.report (d : Diagnostic) : Severity × Cause := (d.severity, d.cause)

/-- What a diagnostic tells, and where. -/
def Diagnostic.gist (d : Diagnostic) : Severity × Cause × Location := (d.severity, d.cause, d.loc)

namespace Preprocess

/-- Two outputs with the same tokens up to numbers, the same imports, and the same problems in the same
order. -/
structure Output.Agrees (a b : Output) : Prop where
  tokens : a.tokens.map Token.anonymous = b.tokens.map Token.anonymous
  imports : a.imports = b.imports
  reports : a.diagnostics.map Diagnostic.report = b.diagnostics.map Diagnostic.report

namespace Output.Agrees

variable {a b c a' b' : Output}

theorem refl (a : Output) : a.Agrees a := ⟨rfl, rfl, rfl⟩

theorem symm (h : a.Agrees b) : b.Agrees a := ⟨h.tokens.symm, h.imports.symm, h.reports.symm⟩

theorem trans (h : a.Agrees b) (h' : b.Agrees c) : a.Agrees c :=
  ⟨h.tokens.trans h'.tokens, h.imports.trans h'.imports, h.reports.trans h'.reports⟩

theorem append (h : a.Agrees b) (h' : a'.Agrees b') : (a ++ a').Agrees (b ++ b') := by
  refine ⟨?_, ?_, ?_⟩
  · simp only [append_tokens, List.map_append, h.tokens, h'.tokens]
  · simp only [append_imports, h.imports, h'.imports]
  · simp only [append_diagnostics, List.map_append, h.reports, h'.reports]

/-- Outputs of nothing but tokens agree if these do. -/
theorem ofTokens {ts us : List Token} (h : ts.map Token.anonymous = us.map Token.anonymous) :
    ({ tokens := ts } : Output).Agrees { tokens := us } :=
  ⟨h, rfl, rfl⟩

/-- The newline of a line agrees with the one without number. -/
theorem newline (l : Line) :
    ({ tokens := l.newline.toList } : Output).Agrees { tokens := l.anonymous.newline.toList } :=
  ofTokens (by simp [Option.toList_map])

theorem concat {α : Type} {f g : α → Output} {xs : List α} (h : ∀ x ∈ xs, (f x).Agrees (g x)) :
    (concat (xs.map f)).Agrees (concat (xs.map g)) := by
  induction xs with
  | nil => exact refl _
  | cons x xs ih =>
    exact (h x List.mem_cons_self).append (ih fun y hy => h y (List.mem_cons_of_mem x hy))

end Output.Agrees

/-- Results of a pass whose outputs agree and that count expansions alike. -/
structure Alike (r r' : Output × Context) : Prop where
  output : r.1.Agrees r'.1
  expansion : r.2.expansion = r'.2.expansion

theorem Alike.symm {r r' : Output × Context} (h : Alike r r') : Alike r' r := ⟨h.output.symm, h.expansion.symm⟩

theorem Alike.trans {r r' r'' : Output × Context} (h : Alike r r') (h' : Alike r' r'') : Alike r r'' :=
  ⟨h.output.trans h'.output, h.expansion.trans h'.expansion⟩

/-! ## Imports and comments -/

theorem isCommented_anonymous (d : Dialect) (ts : List Token) :
    isCommented d (ts.map Token.anonymous) = isCommented d ts := by
  simp [isCommented, Function.comp_def]

/-- An import line without the numbers of its tokens. -/
def ImportLine.anonymous (l : ImportLine) : ImportLine :=
  ⟨l.before.map Token.anonymous, l.tokens.map Token.anonymous, l.name⟩

/-- The name in the tokens of an import, to the end of the line; empty if these are malformed. -/
def importName (d : Dialect) (tokens : List Token) : Text :=
  match importFull.matchStart tokens with
  | some m =>
    let trailing := Token.trim (tokens.drop m.length)
    if trailing.isEmpty || isCommented d (trailing.take 1) then (m.tokens[2]?.bind Token.unquote?).getD [] else []
  | none => []

/-- The import in a line, by the place where it starts. -/
theorem importIn?_eq (d : Dialect) (line : List Token) :
    importIn? d line = (importStart.matchAnywhere line).bind fun found =>
      if isCommented d (line.take found.start) then none
      else some ⟨line.take found.start, line.drop found.start, importName d (line.drop found.start)⟩ := by
  rw [importIn?, Option.bind_eq_bind]
  refine Option.bind_congr fun found _ => ?_
  cases hcommented : isCommented d (line.take found.start)
  · simp only [hcommented, Bool.not_false, guard_true, pure_bind]
    rfl
  · simp only [hcommented, Bool.not_true, Bool.false_eq_true, guard_false, if_true]
    rfl

theorem importName_anonymous (d : Dialect) (ts : List Token) :
    importName d (ts.map Token.anonymous) = importName d ts := by
  rw [importName, importName, Pattern.matchStart_anonymous rfl]
  cases importFull.matchStart ts with
  | none => rfl
  | some m =>
    have hname : ((m.tokens.map Token.anonymous)[2]?).bind Token.unquote? = m.tokens[2]?.bind Token.unquote? := by
      rw [List.getElem?_map, Option.bind_map]
      rfl
    simp only [Option.map_some, Match.anonymous, ← List.map_drop, Token.trim_anonymous, ← List.map_take,
      isCommented_anonymous, List.isEmpty_map, hname]

theorem importIn?_anonymous (d : Dialect) (line : List Token) :
    importIn? d (line.map Token.anonymous) = (importIn? d line).map ImportLine.anonymous := by
  rw [importIn?_eq, importIn?_eq, Pattern.matchAnywhere_anonymous rfl, Option.bind_map, Option.map_bind]
  refine Option.bind_congr fun found _ => ?_
  have hstart : found.anonymous.start = found.start := rfl
  rw [Function.comp_apply, Function.comp_apply, hstart, ← List.map_take, ← List.map_drop, isCommented_anonymous,
    importName_anonymous]
  split_ifs <;> rfl

theorem agrees_importOutput (cfg : Config) (i : ImportLine) :
    (importOutput cfg i).Agrees (importOutput cfg i.anonymous) := by
  have hname : i.anonymous.name = i.name := rfl
  rw [importOutput, importOutput, hname]
  refine .append ⟨rfl, rfl, rfl⟩ ?_
  split_ifs
  · exact ⟨rfl, rfl, rfl⟩
  · cases findImport cfg i.name <;> exact ⟨rfl, rfl, rfl⟩

theorem agrees_importLine (cfg : Config) (l : Line) :
    (importLine cfg l).Agrees (importLine cfg l.anonymous) := by
  rw [importLine, importLine, Line.tokens_anonymous, importIn?_anonymous]
  cases importIn? cfg.dialect l.tokens with
  | none => exact .ofTokens (by simp)
  | some i =>
    exact .append (agrees_importOutput cfg i) (.ofTokens (by simp [ImportLine.anonymous, Option.toList_map]))

theorem agrees_imports (cfg : Config) (ts : List Token) :
    (imports cfg ts).Agrees (imports cfg (ts.map Token.anonymous)) := by
  rw [imports, imports, Line.ofTokens_anonymous, List.map_map]
  exact .concat fun l _ => agrees_importLine cfg l

theorem agrees_comments (cfg : Config) (ts : List Token) :
    (comments cfg ts).Agrees (comments cfg (ts.map Token.anonymous)) := by
  rw [comments, comments, Line.ofTokens_anonymous, List.map_map]
  split_ifs
  · exact .ofTokens (by simp)
  · refine .concat fun l _ => ⟨?_, rfl, rfl⟩
    simp [commentLine, List.takeWhile_map, Option.toList_map, Function.comp_def]

/-! ## Equates -/

theorem startsWith_anonymous (ts : List Token) (word : Text) :
    startsWith (ts.map Token.anonymous) word = startsWith ts word := by
  rw [startsWith, startsWith, Token.dropWhile_isSpace_anonymous, List.head?_map]
  cases (ts.dropWhile Token.isSpace).head? <;> rfl

theorem equateIn?_anonymous (line : List Token) : equateIn? (line.map Token.anonymous) = equateIn? line := by
  rw [equateIn?, equateIn?, Pattern.matchExact_anonymous rfl]
  cases equateFull.matchExact line with
  | none => rfl
  | some m =>
    simp only [Option.map_some, Match.anonymous, Option.bind_eq_bind, Option.bind_some, List.getElem?_map,
      Option.bind_map]
    rfl

theorem agrees_collectEquates (found : List (Text × Text)) (lines : List Line) :
    (collectEquates found lines).1.Agrees (collectEquates found (lines.map Line.anonymous)).1 ∧
      (collectEquates found lines).2 = (collectEquates found (lines.map Line.anonymous)).2 := by
  induction lines generalizing found with
  | nil => exact ⟨.refl _, rfl⟩
  | cons l lines ih =>
    have hline := Output.Agrees.newline l
    rw [List.map_cons, collectEquates, collectEquates, Line.tokens_anonymous, startsWith_anonymous,
      equateIn?_anonymous]
    split_ifs
    · exact ⟨.append (.ofTokens (by simp)) (ih found).1, (ih found).2⟩
    · cases equateIn? l.tokens with
      | none => exact ⟨.append (.append hline ⟨rfl, rfl, rfl⟩) (ih found).1, (ih found).2⟩
      | some e =>
        obtain ⟨name, value⟩ := e
        simp only
        split_ifs
        · exact ⟨.append (.append ⟨hline.tokens, rfl, rfl⟩ ⟨rfl, rfl, rfl⟩) (ih found).1, (ih found).2⟩
        · exact ⟨.append ⟨hline.tokens, rfl, rfl⟩ (ih _).1, (ih _).2⟩

theorem alike_substituteEquates (d : Dialect) (values : List (Text × Text)) {ctx ctx' : Context}
    (hctx : ctx.expansion = ctx'.expansion) (before : Option Token) (ts : List Token) :
    Alike (substituteEquates d values ctx before ts)
      (substituteEquates d values ctx' (before.map Token.anonymous) (ts.map Token.anonymous)) := by
  induction ts generalizing ctx ctx' before with
  | nil => exact ⟨.refl _, hctx⟩
  | cons t ts ih =>
    have hbefore : (before.map Token.anonymous).any (·.isSymbol "\\") = before.any (·.isSymbol "\\") := by
      cases before <;> rfl
    have hkind : t.anonymous.kind = t.kind := rfl
    have htext : t.anonymous.text = t.text := rfl
    rw [List.map_cons, substituteEquates, substituteEquates]
    simp only
    rw [hbefore, hkind, htext]
    cases if t.kind = .word ∧ before.any (·.isSymbol "\\") = false then values.lookup t.text else none with
    | none =>
      have hrest := ih hctx (some t)
      exact ⟨.append (.ofTokens rfl) hrest.output, hrest.expansion⟩
    | some value =>
      obtain ⟨herror, htokens⟩ := Token.pseudoTokenize_anonymous d ctx ctx' value t.loc
      have hctx' : (Token.pseudoTokenize d ctx value t.loc).2.expansion =
          (Token.pseudoTokenize d ctx' value t.loc).2.expansion := by
        rw [expansion_pseudoTokenize, expansion_pseudoTokenize, hctx]
      have hrest := ih hctx' (some t)
      have hloc : t.anonymous.loc = t.loc := rfl
      simp only [hloc, herror]
      cases (Token.pseudoTokenize d ctx' value t.loc).1.error with
      | none => exact ⟨.append (.ofTokens htokens) hrest.output, hrest.expansion⟩
      | some e => exact ⟨.append ⟨rfl, rfl, rfl⟩ hrest.output, hrest.expansion⟩

theorem alike_equates (cfg : Config) {ctx ctx' : Context} (hctx : ctx.expansion = ctx'.expansion)
    (ts : List Token) : Alike (equates cfg ctx ts) (equates cfg ctx' (ts.map Token.anonymous)) := by
  obtain ⟨hkept, hfound⟩ := agrees_collectEquates [] (Line.ofTokens ts)
  rw [equates, equates, Line.ofTokens_anonymous]
  generalize collectEquates [] (Line.ofTokens ts) = r at hkept hfound ⊢
  generalize collectEquates [] ((Line.ofTokens ts).map Line.anonymous) = r' at hkept hfound ⊢
  obtain ⟨kept, found⟩ := r
  obtain ⟨kept', found'⟩ := r'
  obtain rfl : found = found' := hfound
  -- What is kept of both streams is the same without numbers.
  have hleft := alike_substituteEquates cfg.dialect (found ++ cfg.defines) hctx none kept.tokens
  have hright := alike_substituteEquates cfg.dialect (found ++ cfg.defines) (Eq.refl ctx'.expansion) none
    kept'.tokens
  rw [← hkept.tokens] at hright
  have hout := hleft.trans hright.symm
  exact ⟨.append ⟨rfl, hkept.imports, hkept.reports⟩ hout.output, hout.expansion⟩

/-! ## Macros -/

theorem splitArguments_anonymous (depth : Int) (ts : List Token) :
    splitArguments depth (ts.map Token.anonymous) =
      (splitArguments depth ts).map (List.map Token.anonymous) := by
  induction ts generalizing depth with
  | nil => rfl
  | cons t ts ih =>
    rw [List.map_cons, splitArguments, splitArguments, Token.isSymbol_anonymous, Token.isSymbol_anonymous,
      Token.isSymbol_anonymous]
    split_ifs
    · rw [ih, List.map_cons, List.map_nil]
    all_goals
      simp only [ih]
      cases splitArguments _ ts <;> rfl

theorem arguments_anonymous (ts : List Token) :
    arguments (ts.map Token.anonymous) = (arguments ts).map (List.map Token.anonymous) := by
  rw [arguments, arguments, Token.isBlank_anonymous, splitArguments_anonymous]
  split_ifs
  · rfl
  · simp [Function.comp_def]

theorem parameterNames_anonymous (isFirst : Bool) (parts : List (List Token)) :
    parameterNames isFirst (parts.map (List.map Token.anonymous)) = parameterNames isFirst parts := by
  induction parts generalizing isFirst with
  | nil => rfl
  | cons part parts ih =>
    rw [List.map_cons, parameterNames, parameterNames, Token.trim_anonymous]
    rcases Token.trim part with _ | ⟨t, _ | ⟨u, more⟩⟩
    · rw [List.map_nil, List.isEmpty_map]
    · rw [List.map_cons, List.map_nil]
      simp only [ih]
      rfl
    · rfl

/-- A definition that is open, without the numbers of its tokens. -/
def OpenMacro.anonymous (o : OpenMacro) : OpenMacro where
  header := o.header.map Token.anonymous
  signature := o.signature
  tokens := o.tokens.map Token.anonymous
  body := o.body.map Token.anonymous
  nested := o.nested

theorem openMacro_anonymous (l : Line) :
    (openMacro l.anonymous).1 = (openMacro l).1.anonymous ∧ (openMacro l).2.Agrees (openMacro l.anonymous).2 := by
  have hline := Output.Agrees.newline l
  rw [openMacro, openMacro, Line.tokens_anonymous, Pattern.matchStart_anonymous rfl]
  cases macroHeader.matchStart l.tokens with
  | none => exact ⟨by simp [OpenMacro.anonymous], hline⟩
  | some m =>
    have hlength : m.anonymous.length = m.length := rfl
    have hsignature : ∀ params : List Text, m.anonymous.tokens[1]?.map (fun name => (name.text, params)) =
        m.tokens[1]?.map fun name => (name.text, params) := by
      intro params
      rw [Match.anonymous, List.getElem?_map, Option.map_map]
      rfl
    simp only [Option.map_some, hlength, ← List.map_drop, hsignature]
    generalize l.tokens.drop m.length = rest
    have hparts : (if Token.isBlank (rest.map Token.anonymous) then []
        else splitArguments 0 (rest.map Token.anonymous)) =
        (if Token.isBlank rest then [] else splitArguments 0 rest).map (List.map Token.anonymous) := by
      rw [Token.isBlank_anonymous, splitArguments_anonymous]
      split_ifs <;> rfl
    rw [hparts, hasTrailingComma, hasTrailingComma, parameterNames_anonymous]
    generalize parameterNames true (if Token.isBlank rest then [] else splitArguments 0 rest) = names
    refine ⟨by simp [OpenMacro.anonymous], .append hline ?_⟩
    split_ifs
    · exact ⟨rfl, rfl, rfl⟩
    · exact .refl _

theorem close_anonymous (o : OpenMacro) (macros : List Macro) (l : Line) :
    (o.anonymous.close (macros.map Macro.anonymous) l.anonymous).1 = (o.close macros l).1.map Macro.anonymous ∧
      (o.close macros l).2.Agrees (o.anonymous.close (macros.map Macro.anonymous) l.anonymous).2 := by
  have hsignature : o.anonymous.signature = o.signature := rfl
  have hnested : o.anonymous.nested = o.nested := rfl
  rw [OpenMacro.close, OpenMacro.close, hsignature, hnested]
  cases o.signature with
  | none => exact ⟨rfl, rfl, rfl, rfl⟩
  | some signature =>
    obtain ⟨name, params⟩ := signature
    have hany : (macros.map Macro.anonymous).any (·.name == name) = macros.any (·.name == name) := List.any_map
    simp only
    rw [hany]
    split_ifs
    · exact ⟨rfl, rfl, rfl, rfl⟩
    · exact ⟨rfl, rfl, rfl, rfl⟩
    · exact ⟨by simp [Macro.anonymous, OpenMacro.anonymous], rfl, rfl, rfl⟩

/-- The arguments of parameters, without numbers. -/
theorem lookup_zip_anonymous (params : List Text) (args : List (List Token)) (key : Text) :
    (params.zip (args.map (List.map Token.anonymous))).reverse.lookup key =
      ((params.zip args).reverse.lookup key).map (List.map Token.anonymous) := by
  rw [List.zip_map_right, ← List.map_reverse]
  induction (params.zip args).reverse with
  | nil => rfl
  | cons e rest ih =>
    obtain ⟨name, arg⟩ := e
    rw [List.map_cons, Prod.map_apply, id_eq, List.lookup_cons, List.lookup_cons, ih]
    cases key == name <;> rfl

theorem substituteBody_anonymous (params : List Text) (args : List (List Token)) (serial : Nat)
    (body : List Token) :
    substituteBody params (args.map (List.map Token.anonymous)) serial (body.map Token.anonymous) =
      substituteBody params args serial body := by
  fun_induction substituteBody params args serial body with
  | case1 => rfl
  | case2 t => rfl
  | case3 t next rest hplain ih =>
    rw [List.map_cons] at ih
    simp [substituteBody, hplain, ih]
  | case4 t next rest hplain hserial ih => simp [substituteBody, hplain, hserial, ih]
  | case5 t next rest hplain hserial hname hlookup =>
    simp [substituteBody, hplain, hserial, hname, lookup_zip_anonymous, hlookup]
  | case6 t next rest hplain hserial hname arg hlookup ih =>
    simp [substituteBody, hplain, hserial, hname, lookup_zip_anonymous, hlookup, ih]
  | case7 t next rest hplain hserial hname ih =>
    rw [List.map_cons] at ih
    simp [substituteBody, hplain, hserial, hname, ih]

theorem find?_name_anonymous (macros : List Macro) (name : Text) :
    (macros.map Macro.anonymous).find? (·.name == name) =
      (macros.find? (·.name == name)).map Macro.anonymous := by
  rw [List.find?_map]
  rfl

/-- A word where an invocation may start, with what stands before and behind it. -/
structure Site where
  before : List Token
  name : Token
  args : List Token

/-- A site without the numbers of its tokens. -/
def Site.anonymous (s : Site) : Site :=
  ⟨s.before.map Token.anonymous, s.name.anonymous, s.args.map Token.anonymous⟩

/-- The site at the start of some tokens. -/
def siteAt? (before : List Token) : List Token → Option Site
  | t :: args => if t.kind = .word then some ⟨before, t, args⟩ else none
  | [] => none

/-- The place in a line where a macro may be invoked, whatever macros there are. -/
def site? (line : List Token) : Option Site :=
  let blanks := line.takeWhile Token.isSpace
  match line.dropWhile Token.isSpace with
  | label :: colon :: rest =>
    if label.kind = .word ∧ colon.text = (":" : Text) then
      siteAt? (blanks ++ label :: colon :: rest.takeWhile Token.isSpace) (rest.dropWhile Token.isSpace)
    else siteAt? blanks (label :: colon :: rest)
  | rest => siteAt? blanks rest

/-- The invocation at a site. -/
def Site.invocation? (macros : List Macro) (s : Site) : Option (List Token × Macro × Token × List Token) :=
  (macros.find? (·.name == s.name.text)).map fun m => (s.before, m, s.name, s.args)

/-- The invocation in a line, by the place where it may stand. -/
theorem invocation?_eq (macros : List Macro) (line : List Token) :
    invocation? macros line = (site? line).bind (Site.invocation? macros) := by
  have hdrop : ∀ ts : List Token, ts.drop (ts.takeWhile Token.isSpace).length = ts.dropWhile Token.isSpace :=
    Pattern.drop_ignored
  have hat : ∀ (before : List Token) (t : Token) (args : List Token),
      (if t.kind = .word then (macros.find? (·.name == t.text)).map fun m => (before, m, t, args) else none) =
        (siteAt? before (t :: args)).bind (Site.invocation? macros) := by
    intro before t args
    rw [siteAt?]
    split_ifs <;> rfl
  rw [invocation?, site?]
  simp only [hdrop]
  rcases line.dropWhile Token.isSpace with _ | ⟨label, _ | ⟨colon, rest⟩⟩
  · rfl
  · exact hat _ label []
  · simp only
    split_ifs
    · cases rest.dropWhile Token.isSpace with
      | nil => rfl
      | cons t args => exact hat _ t args
    · rw [← hat, if_pos ‹_›]
    · rw [← hat, if_neg ‹_›]

theorem siteAt?_anonymous (before rest : List Token) :
    siteAt? (before.map Token.anonymous) (rest.map Token.anonymous) = (siteAt? before rest).map Site.anonymous := by
  cases rest with
  | nil => rfl
  | cons t args =>
    rw [List.map_cons, siteAt?, siteAt?, Token.kind_anonymous]
    split_ifs <;> rfl

theorem site?_anonymous (line : List Token) :
    site? (line.map Token.anonymous) = (site? line).map Site.anonymous := by
  rw [site?, site?]
  simp only [Token.takeWhile_isSpace_anonymous, Token.dropWhile_isSpace_anonymous]
  rcases line.dropWhile Token.isSpace with _ | ⟨label, _ | ⟨colon, rest⟩⟩
  · rfl
  · exact siteAt?_anonymous _ [label]
  · have hlabeled := siteAt?_anonymous
      (line.takeWhile Token.isSpace ++ label :: colon :: rest.takeWhile Token.isSpace) (rest.dropWhile Token.isSpace)
    have hplain := siteAt?_anonymous (line.takeWhile Token.isSpace) (label :: colon :: rest)
    simp only [List.map_cons, List.map_append] at hlabeled hplain
    simp only [List.map_cons, Token.kind_anonymous, Token.text_anonymous, Token.takeWhile_isSpace_anonymous,
      Token.dropWhile_isSpace_anonymous, hlabeled, hplain]
    split_ifs <;> rfl

/-- What an invocation consists of, without the numbers of its tokens. -/
def anonymousInvocation (i : List Token × Macro × Token × List Token) :
    List Token × Macro × Token × List Token :=
  (i.1.map Token.anonymous, i.2.1.anonymous, i.2.2.1.anonymous, i.2.2.2.map Token.anonymous)

theorem invocation?_anonymous (macros : List Macro) (line : List Token) :
    invocation? (macros.map Macro.anonymous) (line.map Token.anonymous) =
      (invocation? macros line).map anonymousInvocation := by
  rw [invocation?_eq, invocation?_eq, site?_anonymous, Option.bind_map, Option.map_bind]
  refine Option.bind_congr fun s _ => ?_
  have hname : s.anonymous.name.text = s.name.text := rfl
  rw [Function.comp_apply, Function.comp_apply, Site.invocation?, Site.invocation?, hname, find?_name_anonymous,
    Option.map_map, Option.map_map]
  rfl

/-- In lines that differ in numbers only, the same macro is invoked with the same arguments. -/
theorem invocation?_cases {macros macros' : List Macro}
    (hmacros : macros.map Macro.anonymous = macros'.map Macro.anonymous) {line line' : List Token}
    (hline : line.map Token.anonymous = line'.map Token.anonymous) :
    invocation? macros line = none ∧ invocation? macros' line' = none ∨
      ∃ before m name args before' m' name' args', invocation? macros line = some (before, m, name, args) ∧
        invocation? macros' line' = some (before', m', name', args') ∧
        before.map Token.anonymous = before'.map Token.anonymous ∧ m.params = m'.params ∧
        m.body.map Token.anonymous = m'.body.map Token.anonymous ∧ name.loc = name'.loc ∧
        (arguments args).map (List.map Token.anonymous) = (arguments args').map (List.map Token.anonymous) := by
  have hfound := invocation?_anonymous macros line
  rw [hmacros, hline, invocation?_anonymous] at hfound
  cases hleft : invocation? macros line with
  | none =>
    rw [hleft, Option.map_none, Option.map_eq_none_iff] at hfound
    exact .inl ⟨rfl, hfound⟩
  | some found =>
    rw [hleft, Option.map_some] at hfound
    obtain ⟨⟨before', m', name', args'⟩, hright, heq⟩ := Option.map_eq_some_iff.1 hfound
    obtain ⟨before, m, name, args⟩ := found
    simp only [anonymousInvocation, Prod.mk.injEq] at heq
    obtain ⟨hbefore, hm, hname, hargs⟩ := heq
    have hparams : m'.anonymous.params = m.anonymous.params := congrArg Macro.params hm
    have hbody : m'.anonymous.body = m.anonymous.body := congrArg Macro.body hm
    have hloc : name'.anonymous.loc = name.anonymous.loc := congrArg Token.loc hname
    refine .inr ⟨before, m, name, args, before', m', name', args', rfl, hright, hbefore.symm, hparams.symm,
      hbody.symm, hloc.symm, ?_⟩
    rw [← arguments_anonymous, ← arguments_anonymous, hargs]

/-- Lines that are expanded one after the other, each in the context that the one before left. -/
theorem Alike.foldl {f g : Context → List Token → Output × Context}
    (hfg : ∀ ctx ctx' ts us, ctx.expansion = ctx'.expansion →
      ts.map Token.anonymous = us.map Token.anonymous → Alike (f ctx ts) (g ctx' us))
    {lines lines' : List Line} (hlines : lines.map Line.anonymous = lines'.map Line.anonymous)
    {acc acc' : Output × Context} (hacc : Alike acc acc') :
    Alike
      (lines.foldl (fun (acc : Output × Context) l =>
        let (out, ctx) := f acc.2 l.tokens
        (acc.1 ++ out ++ { tokens := l.newline.toList }, ctx)) acc)
      (lines'.foldl (fun (acc : Output × Context) l =>
        let (out, ctx) := g acc.2 l.tokens
        (acc.1 ++ out ++ { tokens := l.newline.toList }, ctx)) acc') := by
  induction lines generalizing lines' acc acc' with
  | nil =>
    obtain rfl := List.map_eq_nil_iff.1 hlines.symm
    exact hacc
  | cons l lines ih =>
    cases lines' with
    | nil => cases hlines
    | cons l' lines' =>
      obtain ⟨hl, hrest⟩ := List.cons.inj hlines
      have hstep := hfg acc.2 acc'.2 l.tokens l'.tokens hacc.expansion (congrArg Line.tokens hl)
      have hnewline := congrArg (fun l : Line => l.newline.toList) hl
      simp only [Line.newline_anonymous, Option.toList_map] at hnewline
      rw [List.foldl_cons, List.foldl_cons]
      exact ih hrest ⟨.append (.append hacc.output hstep.output) (.ofTokens hnewline), hstep.expansion⟩

theorem alike_expandLine (d : Dialect) {macros macros' : List Macro}
    (hmacros : macros.map Macro.anonymous = macros'.map Macro.anonymous) (depth : Nat) {ctx ctx' : Context}
    (hctx : ctx.expansion = ctx'.expansion) {line line' : List Token}
    (hline : line.map Token.anonymous = line'.map Token.anonymous) :
    Alike (expandLine d macros depth ctx line) (expandLine d macros' depth ctx' line') := by
  -- The lines of a body are expanded one level deeper, where the same macros are known.
  induction depth generalizing ctx ctx' line line' with
  | zero =>
    rw [expandLine, expandLine]
    obtain ⟨hnone, hnone'⟩ | ⟨before, m, name, args, before', m', name', args', hsome, hsome', hbefore, -⟩ :=
      invocation?_cases hmacros hline
    · rw [hnone, hnone']
      exact ⟨.ofTokens hline, hctx⟩
    · rw [hsome, hsome']
      exact ⟨⟨hbefore, rfl, rfl⟩, hctx⟩
  | succ depth ih =>
    rw [expandLine, expandLine]
    obtain ⟨hnone, hnone'⟩ | ⟨before, m, name, args, before', m', name', args', hsome, hsome', hbefore, hparams,
      hbody, hloc, hargs⟩ := invocation?_cases hmacros hline
    · rw [hnone, hnone']
      exact ⟨.ofTokens hline, hctx⟩
    have hserial : ctx.nextExpansion.1 = ctx'.nextExpansion.1 := congrArg (· + 1) hctx
    have hnext : ctx.nextExpansion.2.expansion = ctx'.nextExpansion.2.expansion := hserial
    have hlength : (arguments args).length = (arguments args').length := by
      rw [← List.length_map (List.map Token.anonymous), hargs, List.length_map]
    have htext : substituteBody m.params (arguments args) ctx.nextExpansion.1 m.body =
        substituteBody m'.params (arguments args') ctx'.nextExpansion.1 m'.body := by
      rw [← substituteBody_anonymous, hargs, hbody, substituteBody_anonymous, hparams, hserial]
    rw [hsome, hsome']
    simp only
    rw [htext, hlength, hparams, hloc]
    split_ifs
    · exact ⟨⟨hbefore, rfl, rfl⟩, hctx⟩
    · cases substituteBody m'.params (arguments args') ctx'.nextExpansion.1 m'.body with
      | none => exact ⟨⟨hbefore, rfl, rfl⟩, hnext⟩
      | some text =>
        obtain ⟨herror, htokens⟩ := Token.pseudoTokenize_anonymous d ctx.nextExpansion.2 ctx'.nextExpansion.2 text
          name'.loc
        have hcount : (Token.pseudoTokenize d ctx.nextExpansion.2 text name'.loc).2.expansion =
            (Token.pseudoTokenize d ctx'.nextExpansion.2 text name'.loc).2.expansion := by
          rw [expansion_pseudoTokenize, expansion_pseudoTokenize, hnext]
        simp only [herror]
        cases (Token.pseudoTokenize d ctx'.nextExpansion.2 text name'.loc).1.error with
        | some e => exact ⟨⟨hbefore, rfl, rfl⟩, hcount⟩
        | none =>
          refine Alike.foldl (fun _ _ _ _ hctx hline => ih hctx hline) ?_ ⟨⟨hbefore, rfl, rfl⟩, hcount⟩
          rw [← Line.ofTokens_anonymous, ← Line.ofTokens_anonymous, htokens]

theorem alike_expandLines (d : Dialect) (macros : List Macro) {ctx ctx' : Context}
    (hctx : ctx.expansion = ctx'.expansion) (opened : Option OpenMacro) (lines : List Line) :
    Alike (expandLines d macros ctx opened lines)
      (expandLines d (macros.map Macro.anonymous) ctx' (opened.map OpenMacro.anonymous)
        (lines.map Line.anonymous)) := by
  induction lines generalizing macros ctx ctx' opened with
  | nil => cases opened <;> exact ⟨⟨rfl, rfl, rfl⟩, hctx⟩
  | cons l lines ih =>
    cases opened with
    | some o =>
      rw [List.map_cons, Option.map_some, expandLines, expandLines, Line.tokens_anonymous, startsWith_anonymous,
        startsWith_anonymous]
      split_ifs
      · obtain ⟨hmacros, hclosed⟩ := close_anonymous o macros l
        have hrest := ih (o.close macros l).1 hctx none
        rw [← hmacros] at hrest
        exact ⟨.append hclosed hrest.output, hrest.expansion⟩
      · have hrest := ih macros hctx (some { o with
          tokens := o.tokens ++ l.all, body := o.body ++ l.all,
          nested := o.nested || startsWith l.tokens ".macro" })
        have ho : ({ o with
            tokens := o.tokens ++ l.all, body := o.body ++ l.all,
            nested := o.nested || startsWith l.tokens ".macro" } : OpenMacro).anonymous =
            { o.anonymous with
              tokens := o.anonymous.tokens ++ l.anonymous.all, body := o.anonymous.body ++ l.anonymous.all,
              nested := o.anonymous.nested || startsWith l.tokens ".macro" } := by
          simp [OpenMacro.anonymous]
        rw [Option.map_some, ho] at hrest
        refine ⟨.append ?_ hrest.output, hrest.expansion⟩
        split_ifs
        · exact ⟨rfl, rfl, rfl⟩
        · exact .refl _
    | none =>
      rw [List.map_cons, Option.map_none, expandLines, expandLines, Line.tokens_anonymous, startsWith_anonymous,
        startsWith_anonymous]
      split_ifs
      · obtain ⟨hopened, hout⟩ := openMacro_anonymous l
        have hrest := ih macros hctx (some (openMacro l).1)
        rw [Option.map_some, ← hopened] at hrest
        exact ⟨.append hout hrest.output, hrest.expansion⟩
      · have hrest := ih macros hctx none
        exact ⟨.append (.append ⟨rfl, rfl, rfl⟩ (.newline l)) hrest.output, hrest.expansion⟩
      · have hmacros : macros.map Macro.anonymous = (macros.map Macro.anonymous).map Macro.anonymous := by
          simp [Macro.anonymous, Function.comp_def]
        have hline := alike_expandLine d hmacros macroDepthLimit hctx (Token.map_anonymous_anonymous l.tokens).symm
        have hrest := ih macros hline.expansion none
        exact ⟨.append (.append hline.output (.newline l)) hrest.output, hrest.expansion⟩

theorem alike_expandMacros (cfg : Config) {ctx ctx' : Context} (hctx : ctx.expansion = ctx'.expansion)
    (ts : List Token) : Alike (expandMacros cfg ctx ts) (expandMacros cfg ctx' (ts.map Token.anonymous)) := by
  rw [expandMacros, expandMacros, Line.ofTokens_anonymous]
  exact alike_expandLines cfg.dialect [] hctx none (Line.ofTokens ts)

/-! ## All passes -/

/-- A pass yields alike results for streams that differ in numbers only. -/
theorem Pass.alike_run (cfg : Config) (p : Pass) {ctx ctx' : Context} (hctx : ctx.expansion = ctx'.expansion)
    {ts us : List Token} (h : ts.map Token.anonymous = us.map Token.anonymous) :
    Alike (p.run cfg ctx ts) (p.run cfg ctx' us) := by
  -- Both streams are compared with the one without numbers.
  have hpass : ∀ {ctx ctx' : Context}, ctx.expansion = ctx'.expansion → ∀ ts : List Token,
      Alike (p.run cfg ctx ts) (p.run cfg ctx' (ts.map Token.anonymous)) := by
    intro ctx ctx' hctx ts
    cases p with
    | imports => exact ⟨agrees_imports cfg ts, hctx⟩
    | comments => exact ⟨agrees_comments cfg ts, hctx⟩
    | equates => exact alike_equates cfg hctx ts
    | macros => exact alike_expandMacros cfg hctx ts
    | reduce =>
      refine ⟨.ofTokens ?_, hctx⟩
      rw [Token.reduce_anonymous, Token.map_anonymous_anonymous]
  have hright := hpass (Eq.refl ctx'.expansion) us
  rw [← h] at hright
  exact (hpass hctx ts).trans hright.symm

end Preprocess

/-- Two files on their way through the preprocessor whose outputs agree. -/
structure Preprocessed.Agrees (r r' : Preprocessed) : Prop where
  output : r.output.Agrees r'.output
  expansion : r.context.expansion = r'.context.expansion

namespace Preprocessed.Agrees

open Preprocess

variable {cfg : Config} {r r' : Preprocessed}

theorem symm (h : r.Agrees r') : r'.Agrees r := ⟨h.output.symm, h.expansion.symm⟩

theorem trans {r'' : Preprocessed} (h : r.Agrees r') (h' : r'.Agrees r'') : r.Agrees r'' :=
  ⟨h.output.trans h'.output, h.expansion.trans h'.expansion⟩

theorem step (h : r.Agrees r') (p : Pass) : (step cfg r p).Agrees (step cfg r' p) := by
  have hpass := p.alike_run cfg h.expansion h.output.tokens
  exact ⟨.append ⟨rfl, h.output.imports, h.output.reports⟩ hpass.output, hpass.expansion⟩

theorem foldl (h : r.Agrees r') (ps : List Pass) :
    (ps.foldl (Preprocess.step cfg) r).Agrees (ps.foldl (Preprocess.step cfg) r') := by
  induction ps generalizing r r' with
  | nil => exact h
  | cons p ps ih => exact ih (h.step p)

end Preprocessed.Agrees

end EightBit
