import Mathlib
import EightBit.Proofs.LinesAlike

/-!
# Blanks at the ends of lines in the preprocessor

The passes of the preprocessor look at a line without the blanks at its end, or pass these blanks on. So for tokens
that are alike line by line, every pass yields tokens that are alike, imports the same files and reports the same
problems at the same places.

* `Token.RunsAlike`: the tokens of two lines that are alike; `Token.RunsAlike.congr` is how functions of a line
  respect it.
* `Preprocess.Output.Similar`: outputs that differ in numbers and in blanks at line ends only.
* `Preprocess.similar_run`: the passes one after the other.
-/

namespace EightBit

namespace Token

/-! ## Runs of tokens with blanks at the end -/

/-- The tokens of two lines that differ in numbers and in blanks at their ends. -/
inductive RunsAlike : List Token → List Token → Prop
  | mk {ts us xs ys : List Token} (h : List.Forall₂ Same ts us) (hxs : ∀ x ∈ xs, x.IsGap) (hys : ∀ y ∈ ys, y.IsGap) :
    RunsAlike (ts ++ xs) (us ++ ys)

namespace RunsAlike

/-- A function that sees neither numbers nor blanks at the end of a line has the same value for lines that are
alike. -/
theorem congr {α : Type} {f : List Token → α} (hanonymous : ∀ ts, f (ts.map anonymous) = f ts)
    (hgaps : ∀ ts xs, (∀ x ∈ xs, IsGap x) → f (ts ++ xs) = f ts) {ts us : List Token} (h : RunsAlike ts us) :
    f ts = f us := by
  obtain ⟨hsame, hxs, hys⟩ := h
  rw [hgaps _ _ hxs, hgaps _ _ hys, ← hanonymous, (forall₂_same_iff.1 hsame).1, hanonymous]

theorem isNewline_left {ts us : List Token} (h : RunsAlike ts us) : ∀ t ∈ ts, t.isNewline = false := by
  obtain ⟨hsame, hxs, -⟩ := h
  exact List.forall_mem_append.2 ⟨(forall₂_same_iff.1 hsame).2, fun x hx => (hxs x hx).isNewline⟩

end RunsAlike

section Gaps

variable {xs : List Token} (hxs : ∀ x ∈ xs, x.IsGap)

include hxs

theorem dropWhile_isSpace_append_gaps (ts : List Token) :
    (ts ++ xs).dropWhile isSpace = if (ts.dropWhile isSpace).isEmpty then [] else ts.dropWhile isSpace ++ xs := by
  rw [List.dropWhile_append, List.dropWhile_eq_nil_iff.2 fun x hx => (hxs x hx).isSpace]

@[simp] theorem trimRight_append_gaps (ts : List Token) : trimRight (ts ++ xs) = trimRight ts := by
  rw [trimRight, List.reverse_append,
    List.dropWhile_append_of_pos fun x hx => (hxs x (List.mem_reverse.1 hx)).isSpace]
  rfl

theorem trim_append_gaps (ts : List Token) : trim (ts ++ xs) = trim ts := by
  rw [trim, trim, dropWhile_isSpace_append_gaps hxs]
  split_ifs with hempty
  · rw [List.isEmpty_iff.1 hempty]
  · exact trimRight_append_gaps hxs _

theorem isBlank_append_gaps (ts : List Token) : isBlank (ts ++ xs) = isBlank ts := by
  have hall : xs.all isSpace = true := List.all_eq_true.2 fun x hx => (hxs x hx).isSpace
  rw [isBlank, isBlank, List.all_append, hall, Bool.and_true]

omit hxs in
theorem takeWhile_isSpace_append {ts : List Token} {t : Token} {rest : List Token}
    (h : ts.dropWhile isSpace = t :: rest) (more : List Token) :
    (ts ++ more).takeWhile isSpace = ts.takeWhile isSpace := by
  have hshort : (ts.takeWhile isSpace).length ≠ ts.length := by
    have hlength := congrArg List.length (List.takeWhile_append_dropWhile (p := isSpace) (l := ts))
    rw [h, List.length_append, List.length_cons] at hlength
    omega
  rw [List.takeWhile_append, if_neg hshort]

omit hxs in
/-- Lines that are alike start at the same place, unless they are blank. -/
theorem RunsAlike.firstLoc {ts us : List Token} (h : RunsAlike ts us) (hts : isBlank ts = false) :
    Token.firstLoc ts = Token.firstLoc us := by
  obtain ⟨hsame, hxs, hys⟩ := h
  rw [isBlank_append_gaps hxs] at hts
  cases hsame with
  | nil => cases hts
  | cons ht _ =>
    have hloc : ∀ t u : Token, t.anonymous = u.anonymous → t.loc = u.loc := fun _ _ => congrArg Token.loc
    exact hloc _ _ ht.anonymous

end Gaps

theorem IsGap.is_import {x : Token} (hx : x.IsGap) : x.is "import" = false := by
  rw [Token.is]
  cases htext : x.text with
  | nil => decide +kernel
  | cons b rest =>
    have hblank := hx.isBlank_of_mem b (by rw [htext]; exact List.mem_cons_self)
    refine Text.equalFold_cons_eq_false (Scan.isOutside_of_isBlank hblank).ascii ?_ rest
    have hcases := Scan.endsLine_cases (by rw [Scan.endsLine, hblank, Bool.true_or])
    simp only [List.mem_cons, List.not_mem_nil, or_false] at hcases
    rcases hcases with rfl | rfl | rfl | rfl | rfl | rfl <;> decide +kernel

end Token

theorem Line.Alike.tokens {l m : Line} (h : l.Alike m) : Token.RunsAlike l.tokens m.tokens := by
  cases h with
  | @last ts us h =>
    have hnone : ∀ x ∈ ([] : List Token), x.IsGap := by simp
    have hrun := Token.RunsAlike.mk h hnone hnone
    rwa [List.append_nil, List.append_nil] at hrun
  | ended h hxs hys => exact .mk h hxs hys

/-- Two definitions with the same name and parameters and with bodies that are alike. -/
structure Macro.Similar (m m' : Macro) : Prop where
  name : m.name = m'.name
  params : m.params = m'.params
  body : TokensAlike m.body m'.body

/-! ## Outputs -/

namespace Preprocess

/-- Two outputs with tokens that are alike, the same imports, and the same problems at the same places in the same
order. -/
structure Output.Similar (a b : Output) : Prop where
  tokens : TokensAlike a.tokens b.tokens
  imports : a.imports = b.imports
  gists : a.diagnostics.map Diagnostic.gist = b.diagnostics.map Diagnostic.gist

namespace Output.Similar

variable {a b a' b' : Output}

theorem nil : Similar {} {} := ⟨.nil, rfl, rfl⟩

theorem append (h : a.Similar b) (h' : a'.Similar b') : (a ++ a').Similar (b ++ b') := by
  refine ⟨h.tokens.append h'.tokens, ?_, ?_⟩
  · rw [append_imports, append_imports, h.imports, h'.imports]
  · rw [append_diagnostics, append_diagnostics, List.map_append, List.map_append, h.gists, h'.gists]

theorem ofTokens {ts us : List Token} (h : TokensAlike ts us) : Similar { tokens := ts } { tokens := us } :=
  ⟨h, rfl, rfl⟩

theorem newline {l m : Line} (h : l.Alike m) :
    Similar { tokens := l.newline.toList } { tokens := m.newline.toList } :=
  ofTokens (h.replace .nil)

theorem diagnostic {d d' : Diagnostic} (h : d.gist = d'.gist) :
    Similar { diagnostics := [d] } { diagnostics := [d'] } :=
  ⟨.nil, rfl, by simp [h]⟩

/-- An error in lines that are alike. -/
theorem error (cause : Cause) {ts us : List Token} (h : Token.firstLoc ts = Token.firstLoc us) :
    Similar (.error cause ts) (.error cause us) :=
  diagnostic (by rw [Diagnostic.gist, Diagnostic.gist, Diagnostic.loc, Diagnostic.loc]; exact congrArg _ (congrArg _ h))

theorem concat {f g : Line → Output} {ls ms : List Line} (h : List.Forall₂ Line.Alike ls ms)
    (hfg : ∀ l m, l.Alike m → (f l).Similar (g m)) :
    (Output.concat (ls.map f)).Similar (Output.concat (ms.map g)) := by
  induction h with
  | nil => exact nil
  | cons hl _ ih => exact (hfg _ _ hl).append ih

end Output.Similar

/-- Results of a pass with similar outputs, that count expansions alike. -/
structure Similar (r r' : Output × Context) : Prop where
  output : r.1.Similar r'.1
  expansion : r.2.expansion = r'.2.expansion

/-! ## Imports and comments -/

section Gaps

variable {xs : List Token} (hxs : ∀ x ∈ xs, x.IsGap)

include hxs

theorem take?_append_gaps (cs : List Component) (ts : List Token) :
    Pattern.take? true cs (ts ++ xs) = Pattern.take? true cs ts := by
  induction cs generalizing ts with
  | nil => rfl
  | cons c cs ih =>
    simp only [Pattern.take?, Pattern.drop_ignored, Token.dropWhile_isSpace_append_gaps hxs]
    cases hdrop : ts.dropWhile Token.isSpace with
    | nil => simp
    | cons t rest =>
      have hignored : Pattern.ignored true (ts ++ xs) = Pattern.ignored true ts :=
        congrArg List.length (Token.takeWhile_isSpace_append hdrop xs)
      simp [hignored, ih]

variable {p : Pattern} (hp : p.skipSpace)

include hp

theorem matchStart_append_gaps (ts : List Token) : p.matchStart (ts ++ xs) = p.matchStart ts := by
  rw [Pattern.matchStart, Pattern.matchStart, hp, take?_append_gaps hxs]

omit hxs in
theorem le_length_of_matchStart {ts : List Token} {m : Match} (h : p.matchStart ts = some m) :
    m.length ≤ ts.length := by
  rw [Pattern.matchStart, hp] at h
  obtain ⟨⟨n, matched⟩, htake, rfl⟩ := Option.map_eq_some_iff.1 h
  exact Pattern.le_length_of_take? htake

omit hxs hp in
theorem length_beq_ignored (ts : List Token) : (ts.length == Pattern.ignored true ts) = Token.isBlank ts := by
  induction ts with
  | nil => rfl
  | cons t ts ih =>
    cases ht : t.isSpace with
    | false => simp [Pattern.ignored, Token.isBlank, ht]
    | true => simpa [Pattern.ignored, Token.isBlank, ht] using ih

theorem matchExact_append_gaps (ts : List Token) : p.matchExact (ts ++ xs) = p.matchExact ts := by
  rw [Pattern.matchExact, Pattern.matchExact, matchStart_append_gaps hxs hp]
  cases hmatch : p.matchStart ts with
  | none => rfl
  | some m =>
    simp only [Option.filter_some, hp, List.drop_append_of_le_length (le_length_of_matchStart hp hmatch),
      length_beq_ignored, Token.isBlank_append_gaps hxs]

omit hp in
theorem importName_append_gaps (d : Dialect) (ts : List Token) : importName d (ts ++ xs) = importName d ts := by
  rw [importName, importName, matchStart_append_gaps hxs rfl]
  cases hmatch : importFull.matchStart ts with
  | none => rfl
  | some m =>
    simp only [List.drop_append_of_le_length (le_length_of_matchStart rfl hmatch), Token.trim_append_gaps hxs]

end Gaps

/-- What of an import line matters: what stands before it up to numbers, its name and its place. -/
def ImportLine.brief (i : ImportLine) : List Token × Text × Location :=
  (i.before.map Token.anonymous, i.name, Token.firstLoc i.tokens)

theorem startsImport_append_gaps {xs : List Token} (hxs : ∀ x ∈ xs, x.IsGap) (t : Token) (ts : List Token) :
    startsImport (t :: ts ++ xs) = startsImport (t :: ts) := by
  cases ts with
  | cons u ts => rfl
  | nil =>
    cases xs with
    | nil => rfl
    | cons x xs => simp [startsImport, (hxs x List.mem_cons_self).is_import]

theorem brief_importIn?_append_gaps (d : Dialect) {xs : List Token} (hxs : ∀ x ∈ xs, x.IsGap) (ts : List Token) :
    (importIn? d (ts ++ xs)).map ImportLine.brief = (importIn? d ts).map ImportLine.brief := by
  induction ts with
  | nil =>
    -- No import starts with a blank.
    induction xs with
    | nil => rfl
    | cons x xs ih =>
      obtain ⟨hx, hxs⟩ := List.forall_mem_cons.1 hxs
      have hhash : x.text ≠ ("#" : Text) := hx.text_ne (b := 0x23) (by decide) (by decide)
      have hstart : startsImport (x :: xs) = false := by
        cases xs <;> simp [startsImport, hhash]
      have hnone : importIn? d xs = none := Option.map_eq_none_iff.1 (ih hxs)
      rw [List.nil_append, importIn?_cons, hstart, hnone, if_neg Bool.false_ne_true, Option.map_none, ite_self]
      rfl
  | cons t ts ih =>
    have hstart := startsImport_append_gaps hxs t ts
    have hname := importName_append_gaps hxs d (t :: ts)
    rw [List.cons_append] at hstart hname ⊢
    rw [importIn?_cons, importIn?_cons, hstart, hname]
    split_ifs
    · rfl
    · rfl
    · have hrest := congrArg (Option.map (Prod.map (t.anonymous :: ·) id)) ih
      rw [Option.map_map, Option.map_map] at hrest
      rw [Option.map_map, Option.map_map]
      exact hrest

/-- In lines that are alike, the same import is found at the same place. -/
theorem brief_importIn? (d : Dialect) {ts us : List Token} (h : Token.RunsAlike ts us) :
    (importIn? d ts).map ImportLine.brief = (importIn? d us).map ImportLine.brief := by
  refine h.congr (f := fun ts => (importIn? d ts).map ImportLine.brief) (fun ts => ?_)
    fun ts _ hxs => brief_importIn?_append_gaps d hxs ts
  rw [importIn?_anonymous, Option.map_map]
  congr 1
  funext i
  simp [ImportLine.brief, ImportLine.anonymous, Token.firstLoc_anonymous]

theorem similar_importOutput (cfg : Config) {i i' : ImportLine} (h : i.brief = i'.brief) :
    (importOutput cfg i).Similar (importOutput cfg i') := by
  obtain ⟨-, hname, hloc⟩ : i.before.map Token.anonymous = i'.before.map Token.anonymous ∧ i.name = i'.name ∧
      Token.firstLoc i.tokens = Token.firstLoc i'.tokens := by
    simpa [ImportLine.brief] using h
  rw [importOutput, importOutput, hname]
  refine .append ⟨.nil, rfl, rfl⟩ ?_
  split_ifs
  · exact .error .importSyntax hloc
  · cases findImport cfg i'.name with
    | error cause => exact ⟨.nil, rfl, (Output.Similar.error cause hloc).gists⟩
    | ok tree => exact ⟨.nil, rfl, rfl⟩

theorem mem_of_importIn? {d : Dialect} {line : List Token} {i : ImportLine} (h : importIn? d line = some i) {t : Token}
    (ht : t ∈ i.before) : t ∈ line := by
  have hmem : t ∈ remainder d line := by
    rw [remainder, h]
    exact ht
  exact mem_of_mem_remainder hmem

theorem similar_importLine (cfg : Config) {l m : Line} (h : l.Alike m) :
    (importLine cfg l).Similar (importLine cfg m) := by
  have hbrief := brief_importIn? cfg.dialect h.tokens
  rw [importLine, importLine]
  cases hl : importIn? cfg.dialect l.tokens with
  | none =>
    rw [hl, Option.map_none, eq_comm, Option.map_eq_none_iff] at hbrief
    rw [hbrief]
    exact .ofTokens h.all
  | some i =>
    rw [hl, Option.map_some, eq_comm, Option.map_eq_some_iff] at hbrief
    obtain ⟨i', hm, hi⟩ := hbrief
    rw [hm]
    refine .append (similar_importOutput cfg hi.symm) (.ofTokens (h.replace (Token.forall₂_same_iff.2 ⟨?_, ?_⟩)))
    · exact (congrArg Prod.fst hi).symm
    · exact fun t ht => h.tokens.isNewline_left t (mem_of_importIn? hl ht)

theorem similar_imports (cfg : Config) {ts us : List Token} (h : TokensAlike ts us) :
    (imports cfg ts).Similar (imports cfg us) :=
  .concat h.lines fun _ _ => similar_importLine cfg

theorem similar_commentLine (d : Dialect) {l m : Line} (h : l.Alike m) :
    (commentLine d l).Similar (commentLine d m) := by
  have hsame : ∀ {ts us : List Token}, List.Forall₂ Token.Same ts us →
      List.Forall₂ Token.Same (ts.takeWhile fun t => !t.isSymbol d.comment)
        (us.takeWhile fun t => !t.isSymbol d.comment) := by
    intro ts us hts
    induction hts with
    | nil => exact .nil
    | @cons t u ts us ht _ ih =>
      have hsymbol : u.isSymbol d.comment = t.isSymbol d.comment := by
        rw [← Token.isSymbol_anonymous, ← ht.anonymous, Token.isSymbol_anonymous]
      rw [List.takeWhile_cons, List.takeWhile_cons, hsymbol]
      split_ifs
      · exact .cons ht ih
      · exact .nil
  have hgap : ∀ {xs : List Token}, (∀ x ∈ xs, x.IsGap) →
      xs.takeWhile (fun t => !t.isSymbol d.comment) = xs := by
    intro xs hxs
    refine List.takeWhile_eq_self_iff.2 fun x hx => ?_
    simp [Token.isSymbol, (hxs x hx).kind]
  refine ⟨?_, rfl, rfl⟩
  cases h with
  | last h => exact (Line.Alike.last h).replace (hsame h)
  | ended h hxs hys hn hm =>
    -- With a comment in them, lines lose the blanks at their ends.
    have hkept := hsame h
    have hlengths := h.length_eq
    simp only [commentLine, List.takeWhile_append, hgap hxs, hgap hys, ← hkept.length_eq, ← hlengths]
    split_ifs
    · exact (Line.Alike.ended h hxs hys hn hm).all
    · exact (Line.Alike.ended h hxs hys hn hm).replace hkept

theorem similar_comments (cfg : Config) {ts us : List Token} (h : TokensAlike ts us) :
    (comments cfg ts).Similar (comments cfg us) := by
  rw [comments, comments]
  split_ifs
  · exact .ofTokens h
  · exact .concat h.lines fun _ _ => similar_commentLine cfg.dialect

/-! ## Equates -/

theorem startsWith_append_gaps {xs : List Token} (hxs : ∀ x ∈ xs, x.IsGap) (ts : List Token) (word : Text) :
    startsWith (ts ++ xs) word = startsWith ts word := by
  rw [startsWith, startsWith, Token.dropWhile_isSpace_append_gaps hxs]
  cases ts.dropWhile Token.isSpace <;> rfl

theorem startsWith_eq {ts us : List Token} (h : Token.RunsAlike ts us) (word : Text) :
    startsWith ts word = startsWith us word :=
  h.congr (f := fun ts => startsWith ts word) (fun ts => startsWith_anonymous ts word)
    fun ts _ hxs => startsWith_append_gaps hxs ts word

theorem isBlank_of_startsWith {ts : List Token} {word : Text} (h : startsWith ts word) :
    Token.isBlank ts = false := by
  refine Bool.eq_false_iff.2 fun hblank => ?_
  have hnil : ts.dropWhile Token.isSpace = [] := List.dropWhile_eq_nil_iff.2 (List.all_eq_true.1 hblank)
  rw [startsWith, hnil] at h
  cases h

theorem firstLoc_of_startsWith {ts us : List Token} (h : Token.RunsAlike ts us) {word : Text}
    (hword : startsWith us word) : Token.firstLoc ts = Token.firstLoc us := by
  rw [← startsWith_eq h] at hword
  exact h.firstLoc (isBlank_of_startsWith hword)

theorem equateIn?_eq {ts us : List Token} (h : Token.RunsAlike ts us) : equateIn? ts = equateIn? us := by
  refine h.congr equateIn?_anonymous fun ts _ hxs => ?_
  rw [equateIn?, equateIn?, matchExact_append_gaps hxs rfl]

theorem similar_collectEquates {ls ms : List Line} (h : List.Forall₂ Line.Alike ls ms)
    (found : List (Text × Text)) :
    (collectEquates found ls).1.Similar (collectEquates found ms).1 ∧
      (collectEquates found ls).2 = (collectEquates found ms).2 := by
  induction h generalizing found with
  | nil => exact ⟨.nil, rfl⟩
  | @cons l m ls ms hl _ ih =>
    have hnewline := Output.Similar.newline hl
    rw [collectEquates, collectEquates, startsWith_eq hl.tokens, equateIn?_eq hl.tokens]
    split_ifs with hstarts
    · exact ⟨.append (.ofTokens hl.all) (ih found).1, (ih found).2⟩
    · have hword : startsWith m.tokens ".equ" := by simpa using hstarts
      have hloc := firstLoc_of_startsWith hl.tokens hword
      cases equateIn? m.tokens with
      | none => exact ⟨.append (.append hnewline (.error _ hloc)) (ih found).1, (ih found).2⟩
      | some e =>
        obtain ⟨name, value⟩ := e
        simp only
        split_ifs
        · exact ⟨.append (.append ⟨hnewline.tokens, rfl, rfl⟩ (.error _ hloc)) (ih found).1, (ih found).2⟩
        · exact ⟨.append ⟨hnewline.tokens, rfl, rfl⟩ (ih _).1, (ih _).2⟩

theorem substituteEquates_of_ne_word (d : Dialect) (values : List (Text × Text)) (ctx : Context)
    (before : Option Token) {t : Token} (ht : t.kind ≠ .word) (rest : List Token) :
    substituteEquates d values ctx before (t :: rest) =
      (({ tokens := [t] } : Output) ++ (substituteEquates d values ctx (some t) rest).1,
        (substituteEquates d values ctx (some t) rest).2) := by
  rw [substituteEquates]
  simp [ht]

/-- The end of a line with the blanks before it is kept, and what stands before it no longer matters. -/
theorem substituteEquates_lineEnd (d : Dialect) (values : List (Text × Text)) (ctx : Context) (before : Option Token)
    {xs : List Token} (hxs : ∀ x ∈ xs, x.IsGap) {n : Token} (hn : n.EndsLine) (rest : List Token) :
    substituteEquates d values ctx before (xs ++ n :: rest) =
      (({ tokens := xs ++ [n] } : Output) ++ (substituteEquates d values ctx (some n) rest).1,
        (substituteEquates d values ctx (some n) rest).2) := by
  induction xs generalizing before with
  | nil => exact substituteEquates_of_ne_word d values ctx before (by simp [hn.kind]) rest
  | cons x xs ih =>
    obtain ⟨hx, hxs⟩ := List.forall_mem_cons.1 hxs
    rw [List.cons_append, substituteEquates_of_ne_word d values ctx before (by simp [hx.kind]), ih (some x) hxs]
    rfl

section Unbroken

variable {d : Dialect} (hd : Scan.IsUnbroken d)

include hd

/-- Texts that are alike are filled in alike, and count as no expansion. -/
theorem similar_pseudoTokenize {text text' : Text} (h : TextsAlike text text') {ctx ctx' : Context}
    (hctx : ctx.expansion = ctx'.expansion) (loc : Location) :
    TokensAlike (Token.pseudoTokenize d ctx text loc).1.tokens (Token.pseudoTokenize d ctx' text' loc).1.tokens ∧
      (Token.pseudoTokenize d ctx text loc).1.error = (Token.pseudoTokenize d ctx' text' loc).1.error ∧
      (Token.pseudoTokenize d ctx text loc).2.expansion = (Token.pseudoTokenize d ctx' text' loc).2.expansion := by
  obtain ⟨htokens, herror⟩ := TokensAlike.pseudoTokenize hd h ctx ctx' loc
  refine ⟨htokens, herror, ?_⟩
  rw [expansion_pseudoTokenize, expansion_pseudoTokenize, hctx]

theorem similar_substituteEquates (values : List (Text × Text)) {ts us : List Token} (h : TokensAlike ts us)
    {ctx ctx' : Context} (hctx : ctx.expansion = ctx'.expansion) {before before' : Option Token}
    (hbefore : before.any (·.isSymbol "\\") = before'.any (·.isSymbol "\\")) :
    Similar (substituteEquates d values ctx before ts) (substituteEquates d values ctx' before' us) := by
  induction h using LinesAlike.elementwise generalizing ctx ctx' before before' with
  | nil => exact ⟨.nil, hctx⟩
  | @cons t u ts us htu _ ih =>
    have hloc : t.loc = u.loc := htu.loc
    have hkept : TokensAlike [t] [u] := .last (.cons htu .nil)
    have hsymbol : (some t).any (·.isSymbol "\\") = (some u).any (·.isSymbol "\\") := htu.isSymbol _
    rw [substituteEquates, substituteEquates]
    simp only
    -- Whether a word is a name that stands for a value depends on the token before it alone.
    rw [hbefore, htu.kind, htu.text, hloc]
    cases if u.kind = .word ∧ before'.any (·.isSymbol "\\") = false then values.lookup u.text else none with
    | none =>
      have hrest := ih hctx hsymbol
      exact ⟨.append (.ofTokens hkept) hrest.output, hrest.expansion⟩
    | some value =>
      obtain ⟨htokens, herror, hcount⟩ := similar_pseudoTokenize hd (.refl value) hctx u.loc
      have hrest := ih hcount hsymbol
      simp only [herror]
      cases (Token.pseudoTokenize d ctx' value u.loc).1.error with
      | none => exact ⟨.append (.ofTokens htokens) hrest.output, hrest.expansion⟩
      | some e =>
        have hreported : Output.Similar (.error .substitutionInvalid [t]) (.error .substitutionInvalid [u]) :=
          .error _ hloc
        exact ⟨.append ⟨hkept, rfl, hreported.gists⟩ hrest.output, hrest.expansion⟩
  | @ended xs ys a b cs ds hxs hys ha hb _ ih =>
    rw [substituteEquates_lineEnd d values ctx before hxs ha, substituteEquates_lineEnd d values ctx' before' hys hb]
    have hsymbol : (some a).any (·.isSymbol "\\") = (some b).any (·.isSymbol "\\") := by
      rw [Option.any_some, Option.any_some, Token.isSymbol, Token.isSymbol, ha.kind, hb.kind]
      rfl
    have hrest := ih hctx hsymbol
    exact ⟨.append (.ofTokens (.ended hxs hys ha hb .nil)) hrest.output, hrest.expansion⟩

omit hd in
theorem similar_equates {cfg : Config} (hd : Scan.IsUnbroken cfg.dialect) {ts us : List Token} (h : TokensAlike ts us)
    {ctx ctx' : Context} (hctx : ctx.expansion = ctx'.expansion) :
    Similar (equates cfg ctx ts) (equates cfg ctx' us) := by
  obtain ⟨hkept, hfound⟩ := similar_collectEquates h.lines []
  have hout := similar_substituteEquates hd ((collectEquates [] (Line.ofTokens ts)).2 ++ cfg.defines) hkept.tokens
    hctx (Eq.refl ((none : Option Token).any (·.isSymbol "\\")))
  rw [equates, equates]
  rw [hfound] at hout
  simp only [hfound]
  exact ⟨.append ⟨.nil, hkept.imports, hkept.gists⟩ hout.output, hout.expansion⟩

end Unbroken

/-! ## Macro definitions -/

section Gaps

variable {xs : List Token} (hxs : ∀ x ∈ xs, x.IsGap)

include hxs

theorem splitArguments_gaps (depth : Int) : splitArguments depth xs = [xs] := by
  induction xs with
  | nil => rfl
  | cons x xs ih =>
    obtain ⟨hx, hxs⟩ := List.forall_mem_cons.1 hxs
    have hsymbol : ∀ text : Text, x.isSymbol text = false := by
      intro text
      simp [Token.isSymbol, hx.kind]
    simp [splitArguments, hsymbol, ih hxs]

/-- Blanks at the end of a run of tokens belong to its last part. -/
theorem exists_splitArguments_append_gaps (depth : Int) (ts : List Token) :
    ∃ init last, splitArguments depth ts = init ++ [last] ∧ splitArguments depth (ts ++ xs) = init ++ [last ++ xs] := by
  induction ts generalizing depth with
  | nil => exact ⟨[], [], rfl, splitArguments_gaps hxs depth⟩
  | cons t ts ih =>
    rw [List.cons_append, splitArguments, splitArguments]
    by_cases hcomma : (t.isSymbol "," && depth == 0) = true
    · obtain ⟨init, last, hts, happend⟩ := ih depth
      rw [if_pos hcomma, if_pos hcomma, hts, happend]
      exact ⟨[] :: init, last, rfl, rfl⟩
    · rw [if_neg hcomma, if_neg hcomma]
      generalize (if t.isSymbol "(" then depth + 1 else if t.isSymbol ")" then depth - 1 else depth) = inner
      obtain ⟨init, last, hts, happend⟩ := ih inner
      simp only [hts, happend]
      cases init with
      | nil => exact ⟨[], t :: last, rfl, rfl⟩
      | cons part parts => exact ⟨(t :: part) :: parts, last, rfl, rfl⟩

theorem map_trim_splitArguments_append_gaps (depth : Int) (ts : List Token) :
    (splitArguments depth (ts ++ xs)).map Token.trim = (splitArguments depth ts).map Token.trim := by
  obtain ⟨init, last, hts, happend⟩ := exists_splitArguments_append_gaps hxs depth ts
  rw [hts, happend, List.map_append, List.map_append, List.map_singleton, List.map_singleton,
    Token.trim_append_gaps hxs]

theorem arguments_append_gaps (ts : List Token) : arguments (ts ++ xs) = arguments ts := by
  rw [arguments, arguments, Token.isBlank_append_gaps hxs, map_trim_splitArguments_append_gaps hxs]

end Gaps

/-- Parameter names do not depend on the blanks around them. -/
theorem parameterNames_congr {parts parts' : List (List Token)} (h : parts.map Token.trim = parts'.map Token.trim)
    (isFirst : Bool) : parameterNames isFirst parts = parameterNames isFirst parts' := by
  induction parts generalizing parts' isFirst with
  | nil =>
    obtain rfl := List.map_eq_nil_iff.1 h.symm
    rfl
  | cons part parts ih =>
    cases parts' with
    | nil => cases h
    | cons part' parts' =>
      obtain ⟨hpart, hparts⟩ := List.cons.inj h
      -- Whether a part is the last one is seen at the number of parts.
      have hempty : parts.isEmpty = parts'.isEmpty := by
        rw [← List.isEmpty_map (f := Token.trim), hparts, List.isEmpty_map]
      rw [parameterNames, parameterNames, hpart, hempty, ih hparts]

/-- The parts of a header behind the name of the macro. -/
def headerParts (rest : List Token) : List (List Token) :=
  if Token.isBlank rest then [] else splitArguments 0 rest

theorem parameterNames_headerParts {ts us : List Token} (h : Token.RunsAlike ts us) :
    parameterNames true (headerParts ts) = parameterNames true (headerParts us) := by
  refine h.congr (f := fun ts => parameterNames true (headerParts ts)) (fun ts => ?_) fun ts xs hxs => ?_
  · have hparts : headerParts (ts.map Token.anonymous) = (headerParts ts).map (List.map Token.anonymous) := by
      rw [headerParts, headerParts, Token.isBlank_anonymous, splitArguments_anonymous]
      split_ifs <;> rfl
    simp only [hparts, parameterNames_anonymous]
  · refine parameterNames_congr ?_ true
    rw [headerParts, headerParts, Token.isBlank_append_gaps hxs]
    split_ifs
    · rfl
    · exact map_trim_splitArguments_append_gaps hxs 0 ts

/-- What a pattern that ignores blanks finds at the start of lines that are alike. -/
theorem matchStart_cases {p : Pattern} (hp : p.skipSpace) (hlexical : p.isLexical) {ts us : List Token}
    (h : Token.RunsAlike ts us) :
    p.matchStart ts = none ∧ p.matchStart us = none ∨
      ∃ m m', p.matchStart ts = some m ∧ p.matchStart us = some m' ∧
        m.tokens.map Token.anonymous = m'.tokens.map Token.anonymous ∧
        Token.RunsAlike (ts.drop m.length) (us.drop m'.length) := by
  cases h with
  | @mk ts us xs ys hsame hxs hys =>
    have hfound := Pattern.matchStart_anonymous hlexical ts
    rw [(Token.forall₂_same_iff.1 hsame).1, Pattern.matchStart_anonymous hlexical] at hfound
    rw [matchStart_append_gaps hxs hp, matchStart_append_gaps hys hp]
    cases hm : p.matchStart ts with
    | none =>
      rw [hm, Option.map_none, Option.map_eq_none_iff] at hfound
      exact .inl ⟨rfl, hfound⟩
    | some m =>
      rw [hm, Option.map_some] at hfound
      obtain ⟨m', hm', heq⟩ := Option.map_eq_some_iff.1 hfound
      have hlength : m'.length = m.length := by simpa [Match.anonymous] using congrArg Match.length heq
      refine .inr ⟨m, m', rfl, hm', (congrArg Match.tokens heq).symm, ?_⟩
      rw [List.drop_append_of_le_length (le_length_of_matchStart hp hm),
        List.drop_append_of_le_length (le_length_of_matchStart hp hm'), hlength]
      exact .mk (List.forall₂_drop m.length hsame) hxs hys

/-- Two open definitions that start at the same place, with the same signature and with bodies that are alike. -/
structure OpenMacro.Similar (o o' : OpenMacro) : Prop where
  loc : Token.firstLoc o.header = Token.firstLoc o'.header
  signature : o.signature = o'.signature
  body : TokensAlike o.body o'.body
  nested : o.nested = o'.nested

theorem similar_openMacro {l l' : Line} (h : l.Alike l') (hstarts : startsWith l'.tokens ".macro") :
    (openMacro l).1.Similar (openMacro l').1 ∧ (openMacro l).2.Similar (openMacro l').2 := by
  have hloc := firstLoc_of_startsWith h.tokens hstarts
  have hnewline := Output.Similar.newline h
  rw [openMacro, openMacro]
  obtain ⟨hm, hm'⟩ | ⟨m, m', hm, hm', htokens, hrest⟩ :=
    matchStart_cases (by rfl : macroHeader.skipSpace) (by rfl) h.tokens
  · rw [hm, hm']
    exact ⟨⟨hloc, rfl, .nil, rfl⟩, hnewline⟩
  · have hnames := parameterNames_headerParts hrest
    have hname : m.tokens[1]?.map Token.text = m'.tokens[1]?.map Token.text := by
      have htexts := congrArg (fun ts : List Token => ts[1]?.map Token.text) htokens
      simpa [Function.comp_def] using htexts
    have hsignature : ∀ params : List Text, m.tokens[1]?.map (fun name => (name.text, params)) =
        m'.tokens[1]?.map fun name => (name.text, params) := by
      intro params
      have hpair := congrArg (Option.map fun name : Text => (name, params)) hname
      rwa [Option.map_map, Option.map_map] at hpair
    rw [hm, hm']
    simp only [hsignature]
    rw [← headerParts, ← headerParts, hasTrailingComma, hasTrailingComma, hnames]
    refine ⟨⟨hloc, rfl, .nil, rfl⟩, .append hnewline ?_⟩
    split_ifs with hcomma
    · -- A comma stands behind the name, so that the place of the warning is that of a token.
      have hblank : Token.isBlank (l.tokens.drop m.length) = false := by
        refine Bool.eq_false_iff.2 fun hblank => ?_
        rw [← hnames, headerParts, if_pos hblank] at hcomma
        cases hcomma
      exact .diagnostic (by simp [Diagnostic.gist, Diagnostic.warning, Diagnostic.loc, hrest.firstLoc hblank])
    · exact .nil

section Macros

variable {macros macros' : List Macro} (hmacros : List.Forall₂ Macro.Similar macros macros')

include hmacros

theorem rel_find?_name (name : Text) :
    Option.Rel Macro.Similar (macros.find? (·.name == name)) (macros'.find? (·.name == name)) := by
  induction hmacros with
  | nil => exact .none
  | @cons m m' macros macros' hm _ ih =>
    rw [List.find?_cons, List.find?_cons, hm.name]
    cases m'.name == name with
    | true => exact .some hm
    | false => exact ih

theorem any_name_eq (name : Text) : macros.any (·.name == name) = macros'.any (·.name == name) := by
  induction hmacros with
  | nil => rfl
  | cons hm _ ih => rw [List.any_cons, List.any_cons, hm.name, ih]

theorem similar_close {o o' : OpenMacro} (ho : o.Similar o') (l l' : Line) :
    List.Forall₂ Macro.Similar (o.close macros l).1 (o'.close macros' l').1 ∧
      (o.close macros l).2.Similar (o'.close macros' l').2 := by
  rw [OpenMacro.close, OpenMacro.close, ho.signature, ho.nested]
  cases o'.signature with
  | none => exact ⟨hmacros, .error _ ho.loc⟩
  | some signature =>
    obtain ⟨name, params⟩ := signature
    simp only
    rw [any_name_eq hmacros]
    split_ifs
    · exact ⟨hmacros, .nil⟩
    · exact ⟨hmacros, .append ⟨.nil, rfl, rfl⟩ (.error _ ho.loc)⟩
    · exact ⟨List.rel_append hmacros (.cons ⟨rfl, rfl, ho.body⟩ .nil), .nil, rfl, rfl⟩

end Macros

/-! ## Macro bodies -/

section Body

variable {params : List Text} {args : List (List Token)} {serial : Nat}

/-- Whether a token behind a backslash stands for something else. -/
def isFilled (t : Token) : Bool := t.text == ("@" : Text) || t.kind == .word || t.kind == .register

/-- A token is filled in as it is, unless it is a backslash before a parameter. -/
theorem substituteBody_of_plain {t : Token} {rest : List Token}
    (h : t.isSymbol "\\" = false ∨ rest.head?.all fun next => !isFilled next) :
    substituteBody params args serial (t :: rest) = (substituteBody params args serial rest).map (t.text ++ ·) := by
  cases rest with
  | nil => simp [substituteBody]
  | cons next rest =>
    rw [substituteBody]
    rcases h with hplain | hnext
    · simp [hplain]
    · simp only [List.head?_cons, Option.all_some, isFilled, Bool.not_eq_true', Bool.or_eq_false_iff, beq_eq_false_iff_ne]
        at hnext
      simp [hnext]

theorem isFilled_of_isGap {t : Token} (ht : t.IsGap) : isFilled t = false := by
  have hat : t.text ≠ ("@" : Text) := ht.text_ne (b := 0x40) (by decide) (by decide)
  simp [isFilled, hat, ht.kind]

theorem isFilled_of_endsLine {t : Token} (ht : t.EndsLine) : isFilled t = false := by
  have hat : t.text ≠ ("@" : Text) := by
    rw [ht.text]
    decide
  simp [isFilled, hat, ht.kind]

theorem head?_lineEnd {xs : List Token} (hxs : ∀ x ∈ xs, x.IsGap) {n : Token} (hn : n.EndsLine) (rest : List Token) :
    (xs ++ n :: rest).head?.all fun next => !isFilled next := by
  cases xs with
  | nil => simp [isFilled_of_endsLine hn]
  | cons x xs => simp [isFilled_of_isGap (hxs x List.mem_cons_self)]

theorem isBlank_of_mem_join {xs : List Token} (hxs : ∀ x ∈ xs, x.IsGap) : ∀ b ∈ Token.join xs, Scan.isBlank b := by
  intro b hb
  obtain ⟨x, hx, hbx⟩ := List.mem_flatMap.1 hb
  exact (hxs x hx).isBlank_of_mem b hbx

/-- The end of a line with the blanks before it is filled in as it is. -/
theorem substituteBody_lineEnd {xs : List Token} (hxs : ∀ x ∈ xs, x.IsGap) {n : Token} (hn : n.EndsLine)
    (rest : List Token) :
    substituteBody params args serial (xs ++ n :: rest) =
      (substituteBody params args serial rest).map (Token.join xs ++ 0x0A :: ·) := by
  induction xs with
  | nil =>
    have hplain : n.isSymbol "\\" = false := by simp [Token.isSymbol, hn.kind]
    rw [List.nil_append, substituteBody_of_plain (.inl hplain), hn.text]
    rfl
  | cons x xs ih =>
    obtain ⟨hx, hxs⟩ := List.forall_mem_cons.1 hxs
    have hplain : x.isSymbol "\\" = false := by simp [Token.isSymbol, hx.kind]
    rw [List.cons_append, substituteBody_of_plain (.inl hplain), ih hxs, Option.map_map]
    simp [Function.comp_def]

/-- Two texts that are filled in alike, behind the same text. -/
theorem rel_map_append {o o' : Option Text} (h : Option.Rel TextsAlike o o') (t : Text) :
    Option.Rel TextsAlike (o.map (t ++ ·)) (o'.map (t ++ ·)) := by
  cases h with
  | none => exact .none
  | some h => exact .some (.prepend (List.forall₂_refl t) h)

theorem rel_map_lineEnd {xs ys : List Token} (hxs : ∀ x ∈ xs, x.IsGap) (hys : ∀ y ∈ ys, y.IsGap) {o o' : Option Text}
    (h : Option.Rel TextsAlike o o') :
    Option.Rel TextsAlike (o.map (Token.join xs ++ 0x0A :: ·)) (o'.map (Token.join ys ++ 0x0A :: ·)) := by
  cases h with
  | none => exact .none
  | some h => exact .some (.ended (isBlank_of_mem_join hxs) (isBlank_of_mem_join hys) rfl rfl h)

variable {args' : List (List Token)} (hargs : args.map (List.map Token.anonymous) = args'.map (List.map Token.anonymous))

include hargs

theorem join_lookup_args (params : List Text) (name : Text) :
    ((params.zip args).reverse.lookup name).map Token.join =
      ((params.zip args').reverse.lookup name).map Token.join := by
  have hjoin : ∀ args : List (List Token), ((params.zip args).reverse.lookup name).map Token.join =
      ((params.zip (args.map (List.map Token.anonymous))).reverse.lookup name).map Token.join := by
    intro args
    rw [lookup_zip_anonymous, Option.map_map]
    congr 1
    funext arg
    simp
  rw [hjoin, hargs, ← hjoin]

/-- Bodies that are alike are filled in alike. -/
theorem rel_substituteBody {ts us : List Token} (h : TokensAlike ts us) :
    Option.Rel TextsAlike (substituteBody params args serial ts) (substituteBody params args' serial us) := by
  -- A backslash is filled in together with the token behind it: the bodies are taken with one more token in front.
  suffices hboth : Option.Rel TextsAlike (substituteBody params args serial ts) (substituteBody params args' serial us) ∧
      ∀ t u : Token, t.Same u →
        Option.Rel TextsAlike (substituteBody params args serial (t :: ts)) (substituteBody params args' serial (u :: us))
    from hboth.1
  induction h using LinesAlike.elementwise with
  | nil =>
    refine ⟨.some .nil, fun t u htu => ?_⟩
    rw [substituteBody, substituteBody, htu.text]
    exact .some (.refl _)
  | @cons a b ts us hab _ ih =>
    refine ⟨ih.2 a b hab, fun t u htu => ?_⟩
    rw [substituteBody, substituteBody, htu.isSymbol, htu.text, hab.text, hab.kind]
    split_ifs
    · exact rel_map_append (ih.2 a b hab) _
    · exact rel_map_append ih.1 _
    · have hlookup := join_lookup_args hargs params b.text
      cases hleft : (params.zip args).reverse.lookup b.text with
      | none =>
        rw [hleft, Option.map_none, eq_comm, Option.map_eq_none_iff] at hlookup
        rw [hlookup]
        exact .none
      | some arg =>
        rw [hleft, Option.map_some, eq_comm, Option.map_eq_some_iff] at hlookup
        obtain ⟨arg', hright, hjoin⟩ := hlookup
        rw [hright]
        simp only [hjoin]
        exact rel_map_append ih.1 _
    · exact rel_map_append (ih.2 a b hab) _
  | @ended xs ys a b cs ds hxs hys ha hb _ ih =>
    have hline : Option.Rel TextsAlike (substituteBody params args serial (xs ++ a :: cs))
        (substituteBody params args' serial (ys ++ b :: ds)) := by
      rw [substituteBody_lineEnd hxs ha, substituteBody_lineEnd hys hb]
      exact rel_map_lineEnd hxs hys ih.1
    refine ⟨hline, fun t u htu => ?_⟩
    rw [substituteBody_of_plain (.inr (head?_lineEnd hxs ha cs)), substituteBody_of_plain (.inr (head?_lineEnd hys hb ds)),
      htu.text]
    exact rel_map_append hline _

end Body

/-! ## Macro expansions -/

/-- What of a site matters: what stands before it up to numbers, the name and the arguments. -/
def Site.brief (s : Site) : List Token × Token × List (List Token) :=
  (s.before.map Token.anonymous, s.name.anonymous, (arguments s.args).map (List.map Token.anonymous))

theorem brief_siteAt?_append_gaps {xs : List Token} (hxs : ∀ x ∈ xs, x.IsGap) (before : List Token) (t : Token)
    (args : List Token) :
    (siteAt? before (t :: (args ++ xs))).map Site.brief = (siteAt? before (t :: args)).map Site.brief := by
  rw [siteAt?, siteAt?]
  split_ifs
  · simp [Site.brief, arguments_append_gaps hxs]
  · rfl

theorem brief_site?_append_gaps {xs : List Token} (hxs : ∀ x ∈ xs, x.IsGap) (ts : List Token) :
    (site? (ts ++ xs)).map Site.brief = (site? ts).map Site.brief := by
  rw [site?, site?]
  simp only [Token.dropWhile_isSpace_append_gaps hxs]
  rcases hdrop : ts.dropWhile Token.isSpace with _ | ⟨label, _ | ⟨colon, rest⟩⟩
  · simp [siteAt?]
  · -- A blank behind the only word of a line is no colon.
    have hword := brief_siteAt?_append_gaps hxs (ts.takeWhile Token.isSpace) label []
    rw [List.nil_append] at hword
    rw [Token.takeWhile_isSpace_append hdrop]
    cases xs with
    | nil => rfl
    | cons x xs =>
      have hcolon : x.text ≠ (":" : Text) := (hxs x List.mem_cons_self).text_ne (b := 0x3A) (by decide) (by decide)
      simpa [hcolon] using hword
  · rw [Token.takeWhile_isSpace_append hdrop]
    simp only [List.isEmpty_cons, Bool.false_eq_true, if_false, List.cons_append]
    split_ifs
    · rw [Token.dropWhile_isSpace_append_gaps hxs]
      cases hrest : rest.dropWhile Token.isSpace with
      | nil => simp [siteAt?]
      | cons t args =>
        rw [Token.takeWhile_isSpace_append hrest]
        exact brief_siteAt?_append_gaps hxs _ t args
    · exact brief_siteAt?_append_gaps hxs _ label (colon :: rest)

theorem brief_site? {ts us : List Token} (h : Token.RunsAlike ts us) :
    (site? ts).map Site.brief = (site? us).map Site.brief := by
  refine h.congr (f := fun ts => (site? ts).map Site.brief) (fun ts => ?_) fun ts _ hxs =>
    brief_site?_append_gaps hxs ts
  rw [site?_anonymous, Option.map_map]
  congr 1
  funext s
  simp [Site.brief, Site.anonymous, arguments_anonymous]

theorem eq_of_siteAt? {before rest : List Token} {s : Site} (h : siteAt? before rest = some s) :
    s.before = before ∧ rest = s.name :: s.args := by
  cases rest with
  | nil => cases h
  | cons t args =>
    rw [siteAt?] at h
    split_ifs at h
    cases h
    exact ⟨rfl, rfl⟩

/-- A line is what stands before a site, the site and what stands behind it. -/
theorem eq_of_site? {line : List Token} {s : Site} (h : site? line = some s) : line = s.before ++ s.name :: s.args := by
  have hsplit : ∀ ts : List Token, ts = ts.takeWhile Token.isSpace ++ ts.dropWhile Token.isSpace := fun ts =>
    List.takeWhile_append_dropWhile.symm
  have hline := hsplit line
  rw [site?] at h
  rcases hdrop : line.dropWhile Token.isSpace with _ | ⟨label, _ | ⟨colon, rest⟩⟩
  · rw [hdrop] at h
    cases h
  · rw [hdrop] at h hline
    obtain ⟨hbefore, hrest⟩ := eq_of_siteAt? h
    rw [hbefore, ← hrest]
    exact hline
  · rw [hdrop] at h hline
    simp only at h
    split_ifs at h
    · obtain ⟨hbefore, hrest⟩ := eq_of_siteAt? h
      rw [hbefore, ← hrest, List.append_assoc, List.cons_append, List.cons_append, ← hsplit rest]
      exact hline
    · obtain ⟨hbefore, hrest⟩ := eq_of_siteAt? h
      rw [hbefore, ← hrest]
      exact hline

/-- In lines that are alike, a macro is invoked alike, or none. -/
theorem similar_invocation? {macros macros' : List Macro} (hmacros : List.Forall₂ Macro.Similar macros macros')
    {line line' : List Token} (hline : Token.RunsAlike line line') :
    invocation? macros line = none ∧ invocation? macros' line' = none ∨
      ∃ before m name args before' m' name' args', invocation? macros line = some (before, m, name, args) ∧
        invocation? macros' line' = some (before', m', name', args') ∧ List.Forall₂ Token.Same before before' ∧
        m.Similar m' ∧ name.loc = name'.loc ∧
        (arguments args).map (List.map Token.anonymous) = (arguments args').map (List.map Token.anonymous) := by
  have hbrief := brief_site? hline
  rw [invocation?_eq, invocation?_eq]
  cases hs : site? line with
  | none =>
    rw [hs, Option.map_none, eq_comm, Option.map_eq_none_iff] at hbrief
    rw [hbrief]
    exact .inl ⟨rfl, rfl⟩
  | some s =>
    rw [hs, Option.map_some, eq_comm, Option.map_eq_some_iff] at hbrief
    obtain ⟨s', hs', heq⟩ := hbrief
    simp only [Site.brief, Prod.mk.injEq] at heq
    obtain ⟨hbefore, hname, hargs⟩ := heq
    have htext : s.name.text = s'.name.text := by simpa using congrArg Token.text hname.symm
    have hloc : s.name.loc = s'.name.loc := by simpa using congrArg Token.loc hname.symm
    have hnewline : ∀ t ∈ s.before, t.isNewline = false := by
      intro t ht
      refine hline.isNewline_left t ?_
      rw [eq_of_site? hs]
      exact List.mem_append_left _ ht
    rw [hs', Option.bind_some, Option.bind_some, Site.invocation?, Site.invocation?, htext]
    have hrel := rel_find?_name hmacros s'.name.text
    generalize macros.find? (·.name == s'.name.text) = found at hrel ⊢
    generalize macros'.find? (·.name == s'.name.text) = found' at hrel ⊢
    cases hrel with
    | none => exact .inl ⟨rfl, rfl⟩
    | @some m m' hm =>
      exact .inr ⟨s.before, m, s.name, s.args, s'.before, m', s'.name, s'.args, rfl, rfl,
        Token.forall₂_same_iff.2 ⟨hbefore.symm, hnewline⟩, hm, hloc, hargs.symm⟩

theorem Output.append_assoc (a b c : Output) : a ++ b ++ c = a ++ (b ++ c) := by
  have happend : ∀ a b : Output, a ++ b = a.append b := fun _ _ => rfl
  simp [happend, Output.append]

/-- What a pass makes of a line, with the end of the line behind it. -/
def withEnd (r : Output × Context) (l : Line) : Output × Context := (r.1 ++ { tokens := l.newline.toList }, r.2)

theorem Similar.withEnd {r r' : Output × Context} (h : Similar r r') {l l' : Line} (hl : l.Alike l') :
    Similar (Preprocess.withEnd r l) (Preprocess.withEnd r' l') :=
  ⟨h.output.append (.newline hl), h.expansion⟩

/-- Lines that are expanded one after the other, each in the context that the one before left. -/
theorem Similar.foldl {f g : Context → List Token → Output × Context}
    (hfg : ∀ ctx ctx' l l', ctx.expansion = ctx'.expansion → Line.Alike l l' →
      Similar (Preprocess.withEnd (f ctx l.tokens) l) (Preprocess.withEnd (g ctx' l'.tokens) l'))
    {ls ms : List Line} (h : List.Forall₂ Line.Alike ls ms) {acc acc' : Output × Context} (hacc : Similar acc acc') :
    Similar
      (ls.foldl (fun (acc : Output × Context) l =>
        (acc.1 ++ (f acc.2 l.tokens).1 ++ { tokens := l.newline.toList }, (f acc.2 l.tokens).2)) acc)
      (ms.foldl (fun (acc : Output × Context) l =>
        (acc.1 ++ (g acc.2 l.tokens).1 ++ { tokens := l.newline.toList }, (g acc.2 l.tokens).2)) acc') := by
  induction h generalizing acc acc' with
  | nil => exact hacc
  | @cons l l' ls ms hl _ ih =>
    have hstep := hfg acc.2 acc'.2 l l' hacc.expansion hl
    rw [List.foldl_cons, List.foldl_cons]
    refine ih ⟨?_, hstep.expansion⟩
    rw [Output.append_assoc, Output.append_assoc]
    exact hacc.output.append hstep.output

/-- An invocation that is refused leaves what stands before it. -/
theorem similar_refused (cause : Cause) {before before' : List Token} (hbefore : List.Forall₂ Token.Same before before')
    {name name' : Token} (hloc : name.loc = name'.loc) (args args' : List Token) :
    Output.Similar { tokens := before, diagnostics := [.error cause (name :: args)] }
      { tokens := before', diagnostics := [.error cause (name' :: args')] } := by
  have herror : Output.Similar (.error cause (name :: args)) (.error cause (name' :: args')) := .error cause hloc
  exact ⟨.last hbefore, rfl, herror.gists⟩

section Unbroken

variable {d : Dialect} (hd : Scan.IsUnbroken d)

include hd

/-- Lines that are alike are expanded alike, together with their ends. -/
theorem similar_expandLine {macros macros' : List Macro} (hmacros : List.Forall₂ Macro.Similar macros macros')
    (depth : Nat) {ctx ctx' : Context} (hctx : ctx.expansion = ctx'.expansion) {l l' : Line} (h : l.Alike l') :
    Similar (withEnd (expandLine d macros depth ctx l.tokens) l) (withEnd (expandLine d macros' depth ctx' l'.tokens) l') := by
  -- The lines of a body are expanded one level deeper, where the same macros are known.
  induction depth generalizing ctx ctx' l l' with
  | zero =>
    rw [expandLine, expandLine]
    obtain ⟨hnone, hnone'⟩ | ⟨before, m, name, args, before', m', name', args', hsome, hsome', hbefore, -, hloc, -⟩ :=
      similar_invocation? hmacros h.tokens
    · rw [hnone, hnone']
      exact ⟨⟨h.all, rfl, rfl⟩, hctx⟩
    · rw [hsome, hsome']
      exact .withEnd ⟨similar_refused _ hbefore hloc args args', hctx⟩ h
  | succ depth ih =>
    rw [expandLine, expandLine]
    obtain ⟨hnone, hnone'⟩ | ⟨before, m, name, args, before', m', name', args', hsome, hsome', hbefore, hm, hloc,
      hargs⟩ := similar_invocation? hmacros h.tokens
    · rw [hnone, hnone']
      exact ⟨⟨h.all, rfl, rfl⟩, hctx⟩
    have hserial : ctx.nextExpansion.1 = ctx'.nextExpansion.1 := congrArg (· + 1) hctx
    have hnext : ctx.nextExpansion.2.expansion = ctx'.nextExpansion.2.expansion := hserial
    have hlength : (arguments args).length = (arguments args').length := by
      rw [← List.length_map (List.map Token.anonymous), hargs, List.length_map]
    have hrel : Option.Rel TextsAlike (substituteBody m'.params (arguments args) ctx'.nextExpansion.1 m.body)
        (substituteBody m'.params (arguments args') ctx'.nextExpansion.1 m'.body) :=
      rel_substituteBody hargs hm.body
    rw [hsome, hsome']
    simp only
    rw [hlength, hm.params, hserial, hloc]
    refine .withEnd ?_ h
    split_ifs
    · exact ⟨similar_refused _ hbefore hloc args args', hctx⟩
    generalize substituteBody m'.params (arguments args) ctx'.nextExpansion.1 m.body = filled at hrel ⊢
    generalize substituteBody m'.params (arguments args') ctx'.nextExpansion.1 m'.body = filled' at hrel ⊢
    cases hrel with
    | none => exact ⟨similar_refused _ hbefore hloc args args', hnext⟩
    | @some text text' htext =>
      obtain ⟨htokens, herror, hcount⟩ := similar_pseudoTokenize hd htext hnext name'.loc
      simp only [herror]
      cases (Token.pseudoTokenize d ctx'.nextExpansion.2 text' name'.loc).1.error with
      | some e => exact ⟨similar_refused _ hbefore hloc args args', hcount⟩
      | none => exact Similar.foldl (fun _ _ _ _ hctx hl => ih hctx hl) htokens.lines ⟨⟨.last hbefore, rfl, rfl⟩, hcount⟩

theorem similar_expandLines {ls ms : List Line} (h : List.Forall₂ Line.Alike ls ms) {macros macros' : List Macro}
    (hmacros : List.Forall₂ Macro.Similar macros macros') {ctx ctx' : Context}
    (hctx : ctx.expansion = ctx'.expansion) {opened opened' : Option OpenMacro}
    (hopened : Option.Rel OpenMacro.Similar opened opened') :
    Similar (expandLines d macros ctx opened ls) (expandLines d macros' ctx' opened' ms) := by
  -- Definitions that are open are carried along, and so are the macros that are known already.
  induction h generalizing macros macros' ctx ctx' opened opened' with
  | nil =>
    cases hopened with
    | none => exact ⟨.nil, hctx⟩
    | some ho => exact ⟨.error _ ho.loc, hctx⟩
  | @cons l l' ls ms hl _ ih =>
    have hmacro := startsWith_eq hl.tokens ".macro"
    have hendm := startsWith_eq hl.tokens ".endm"
    cases hopened with
    | @some o o' ho =>
      rw [expandLines, expandLines, hendm, hmacro]
      split_ifs with hend
      · obtain ⟨hclosed, hout⟩ := similar_close hmacros ho l l'
        have hrest := ih hclosed hctx .none
        exact ⟨.append hout hrest.output, hrest.expansion⟩
      · have ho' : OpenMacro.Similar
            { o with
              tokens := o.tokens ++ l.all, body := o.body ++ l.all,
              nested := o.nested || startsWith l'.tokens ".macro" }
            { o' with
              tokens := o'.tokens ++ l'.all, body := o'.body ++ l'.all,
              nested := o'.nested || startsWith l'.tokens ".macro" } :=
          ⟨ho.loc, ho.signature, ho.body.append hl.all, congrArg (· || startsWith l'.tokens ".macro") ho.nested⟩
        have hrest := ih hmacros hctx (.some ho')
        refine ⟨.append ?_ hrest.output, hrest.expansion⟩
        split_ifs with hnested
        · exact .error _ (firstLoc_of_startsWith hl.tokens hnested)
        · exact .nil
    | none =>
      rw [expandLines, expandLines, hendm, hmacro]
      split_ifs with hstart hend
      · obtain ⟨ho, hout⟩ := similar_openMacro hl hstart
        have hrest := ih hmacros hctx (.some ho)
        exact ⟨.append hout hrest.output, hrest.expansion⟩
      · have hrest := ih hmacros hctx .none
        have herror := Output.Similar.error .macroLonelyEnd (firstLoc_of_startsWith hl.tokens hend)
        exact ⟨.append (.append herror (.newline hl)) hrest.output, hrest.expansion⟩
      · have hline := similar_expandLine hd hmacros macroDepthLimit hctx hl
        have hrest := ih hmacros hline.expansion .none
        exact ⟨.append hline.output hrest.output, hrest.expansion⟩

end Unbroken

/-! ## All passes -/

section Passes

variable {cfg : Config} (hd : Scan.IsUnbroken cfg.dialect)

include hd

/-- A pass yields similar results for tokens that are alike. -/
theorem Pass.similar_run (p : Pass) {ctx ctx' : Context} (hctx : ctx.expansion = ctx'.expansion) {ts us : List Token}
    (h : TokensAlike ts us) : Similar (p.run cfg ctx ts) (p.run cfg ctx' us) := by
  cases p with
  | imports => exact ⟨similar_imports cfg h, hctx⟩
  | comments => exact ⟨similar_comments cfg h, hctx⟩
  | equates => exact similar_equates hd h hctx
  | macros => exact similar_expandLines hd h.lines .nil hctx .none
  | reduce => exact ⟨.ofTokens (h.reduce cfg.dialect), hctx⟩

/-- The preprocessor yields similar outputs for tokens that are alike. -/
theorem similar_run (file : Text) {ts us : List Token} (h : TokensAlike ts us) :
    (run cfg file ts).output.Similar (run cfg file us).output := by
  -- The passes in order: each is run on similar tokens, in contexts with equally many expansions.
  have hpasses : ∀ (ps : List Pass) {r r' : Preprocessed}, Similar (r.output, r.context) (r'.output, r'.context) →
      Similar ((ps.foldl (step cfg) r).output, (ps.foldl (step cfg) r).context)
        ((ps.foldl (step cfg) r').output, (ps.foldl (step cfg) r').context) := by
    intro ps
    induction ps with
    | nil => exact fun hr => hr
    | cons p ps ih =>
      intro r r' hr
      have hpass := p.similar_run hd hr.expansion hr.output.tokens
      exact ih ⟨.append ⟨.nil, hr.output.imports, hr.output.gists⟩ hpass.output, hpass.expansion⟩
  have hstart : Similar ((start file ts).output, (start file ts).context)
      ((start file us).output, (start file us).context) := ⟨.ofTokens h, rfl⟩
  have hall := hpasses Pass.all hstart
  exact ⟨hall.output.tokens, hall.output.imports, hall.output.gists⟩

end Passes

end Preprocess

end EightBit
