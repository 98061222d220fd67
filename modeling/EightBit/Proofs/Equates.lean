import Mathlib
import EightBit.Proofs.Rescanning

/-!
# Named constants are copied

Where a stream names a constant, every use of the name becomes one token that stands for that constant: of the same
kind and text, with the same value or the same reason for having none, of the same size, and at the place of the use.

* `Preprocess.IsEquate`, `Preprocess.Names`: a line that names a constant, and the constant that a stream names.
* `Preprocess.Substituted`: tokens in which the uses of names are replaced.
* `Preprocess.substituted_equates`: the result of the pass.
-/

namespace EightBit

/-- A token that is scanned in some text, wherever it stands now. -/
def Token.IsScanned (d : Dialect) (t : Token) : Prop :=
  ∃ file text, ∃ u ∈ (tokenize d file text).tokens, t.bare = u.bare

namespace Preprocess

/-! ## Names -/

/-- A line that names a constant: `.equ`, a name, a comma and a constant, with any blanks around them. -/
def IsEquate (line : List Token) (name : Text) (c : Token) : Prop :=
  ∃ directive word comma, (line.filter fun t => !t.isSpace) = [directive, word, comma, c] ∧
    directive.kind = .word ∧ directive.is ".equ" ∧ word.kind = .word ∧ word.text = name ∧
    comma.text = ("," : Text) ∧ c.kind.isConstant

/-- The constant that a stream names: the first line that gives the name counts. -/
def Names (tokens : List Token) (name : Text) (c : Token) : Prop :=
  ∃ before l after, Line.ofTokens tokens = before ++ l :: after ∧ IsEquate l.tokens name c ∧
    ∀ l' ∈ before, ∀ c', ¬IsEquate l'.tokens name c'

/-- The tokens outside of the lines that start with `.equ`. Of these only the newlines stay, so that a token outside of
them still stands behind the same token. -/
def outsideEquates (tokens : List Token) : List Token :=
  (Line.ofTokens tokens).flatMap fun l => if startsWith l.tokens ".equ" then l.newline.toList else l.all

/-- The text of the constant that a line gives a name. -/
def namedIn? (name : Text) (l : Line) : Option Text :=
  if startsWith l.tokens ".equ" then ((equateIn? l.tokens).filter (·.1 == name)).map Prod.snd else none

/-- What a line names is read off its tokens, blanks ignored. -/
theorem equateIn?_eq_some {line : List Token} {name value : Text} :
    equateIn? line = some (name, value) ↔ ∃ directive word comma c,
      (line.filter fun t => !t.isSpace) = [directive, word, comma, c] ∧ directive.is ".equ" ∧ word.kind = .word ∧
      word.text = name ∧ comma.text = ("," : Text) ∧ c.kind.isConstant ∧ c.text = value := by
  constructor
  · intro h
    simp only [equateIn?, Option.bind_eq_bind, Option.bind_eq_some_iff] at h
    obtain ⟨⟨start, length, matched⟩, hm, word, hword, c, hc, hresult⟩ := h
    obtain ⟨haccepts, hfilter⟩ := Pattern.matchExact_spaced_iff.1 ⟨_, hm, rfl⟩
    rcases haccepts with _ | ⟨hdirective, _ | ⟨hkind, _ | ⟨hcomma, _ | ⟨hconstant, _ | _⟩⟩⟩⟩
    cases hword
    cases hc
    cases hresult
    exact ⟨_, _, _, _, hfilter, hdirective, by simpa [Component.accepts, Component.word] using hkind, rfl,
      beq_iff_eq.1 hcomma, hconstant, rfl⟩
  · rintro ⟨directive, word, comma, c, hfilter, hdirective, hkind, rfl, hcomma, hconstant, rfl⟩
    have haccepts : List.Forall₂ (fun c t => c.accepts t) equateFull.components [directive, word, comma, c] :=
      .cons hdirective (.cons (by simp [Component.accepts, Component.word, hkind]) (.cons (beq_iff_eq.2 hcomma)
        (.cons hconstant .nil)))
    obtain ⟨m, hm, htokens⟩ := Pattern.matchExact_spaced_iff.2 ⟨haccepts, hfilter⟩
    rw [equateIn?, show equateFull.matchExact line = some m from hm]
    simp [htokens]

theorem startsWith_of_filter {line rest : List Token} {t : Token}
    (h : (line.filter fun t => !t.isSpace) = t :: rest) (word : Text) :
    startsWith line word = (t.kind == .word && t.is word) := by
  induction line with
  | nil => cases h
  | cons u line ih =>
    by_cases hu : u.isSpace
    · rw [List.filter_cons_of_neg (by simp [hu])] at h
      rw [← ih h, startsWith, startsWith, List.dropWhile_cons_of_pos hu]
    · rw [List.filter_cons_of_pos (by simp [hu])] at h
      obtain ⟨rfl, -⟩ := List.cons.inj h
      rw [startsWith, List.dropWhile_cons_of_neg hu]
      rfl

theorem namedIn?_eq_some {l : Line} {name value : Text} :
    namedIn? name l = some value ↔ ∃ c, IsEquate l.tokens name c ∧ c.text = value := by
  have hnamed : namedIn? name l = some value ↔
      startsWith l.tokens ".equ" ∧ equateIn? l.tokens = some (name, value) := by
    unfold namedIn?
    split_ifs with hstarts
    · simp [hstarts, Option.filter_eq_some_iff]
    · simp [hstarts]
  rw [hnamed, equateIn?_eq_some]
  constructor
  · rintro ⟨hstarts, directive, word, comma, c, hfilter, hdirective, hword, hname, hcomma, hc, hvalue⟩
    rw [startsWith_of_filter hfilter, Bool.and_eq_true, beq_iff_eq] at hstarts
    exact ⟨c, ⟨directive, word, comma, hfilter, hstarts.1, hdirective, hword, hname, hcomma, hc⟩, hvalue⟩
  · rintro ⟨c, ⟨directive, word, comma, hfilter, hkind, hdirective, hword, hname, hcomma, hc⟩, hvalue⟩
    refine ⟨?_, directive, word, comma, c, hfilter, hdirective, hword, hname, hcomma, hc, hvalue⟩
    rw [startsWith_of_filter hfilter, hkind, hdirective]
    rfl

/-! ## Collecting -/

theorem tokens_collectEquates (found : List (Text × Text)) (lines : List Line) :
    (collectEquates found lines).1.tokens =
      lines.flatMap fun l => if startsWith l.tokens ".equ" then l.newline.toList else l.all := by
  induction lines generalizing found with
  | nil => rfl
  | cons l lines ih =>
    unfold collectEquates
    split
    next h => simp_all
    next h =>
      split
      next => simp_all [Output.error]
      next =>
        split
        next => simp_all [Output.error]
        next => simp_all

/-- The first line that gives a name counts. -/
theorem lookup_collectEquates (found : List (Text × Text)) (lines : List Line) (name : Text) :
    (collectEquates found lines).2.lookup name = (found.lookup name).or (lines.findSome? (namedIn? name)) := by
  induction lines generalizing found with
  | nil => simp [collectEquates]
  | cons l lines ih =>
    rw [List.findSome?_cons, namedIn?, collectEquates]
    by_cases hstarts : startsWith l.tokens ".equ"
    · simp only [hstarts, Bool.not_true, Bool.false_eq_true, if_false, if_true]
      cases equateIn? l.tokens with
      | none => exact ih found
      | some e =>
        obtain ⟨name', value⟩ := e
        -- What was found before shadows the line, and the line shadows those behind it.
        by_cases hname : name' = name
        · subst hname
          have hfilter : (some (name', value)).filter (·.1 == name') = some (name', value) := by simp
          cases hfound : found.lookup name' with
          | none => simp [hfound, ih, List.lookup_append, hfilter]
          | some value' => simp [hfound, ih]
        · have hother : (name == name') = false := by simpa using Ne.symm hname
          have hfilter : (some (name', value)).filter (·.1 == name) = none := by simp [hname]
          simp only [hfilter, Option.map_none]
          split_ifs
          · exact ih found
          · rw [ih, List.lookup_append, List.lookup_cons, hother, List.lookup_nil, Option.or_none]
    · simp only [hstarts, Bool.not_false, if_true]
      exact ih found

/-- What is found under a name is the text of the constant that the stream names. -/
theorem lookup_eq_some {tokens : List Token} {name value : Text} :
    (collectEquates [] (Line.ofTokens tokens)).2.lookup name = some value ↔
      ∃ c, Names tokens name c ∧ c.text = value := by
  have hnone : ∀ l : Line, namedIn? name l = none ↔ ∀ c, ¬IsEquate l.tokens name c := by
    intro l
    rw [Option.eq_none_iff_forall_ne_some]
    simp only [ne_eq, namedIn?_eq_some, not_exists, not_and]
    exact ⟨fun h c hc => h c.text c hc rfl, fun h _ c hc => absurd hc (h c)⟩
  rw [lookup_collectEquates, List.lookup_nil, Option.none_or, List.findSome?_eq_some_iff]
  constructor
  · rintro ⟨before, l, after, hlines, hl, hbefore⟩
    obtain ⟨c, hc, hvalue⟩ := namedIn?_eq_some.1 hl
    exact ⟨c, ⟨before, l, after, hlines, hc, fun l' hl' => (hnone l').1 (hbefore l' hl')⟩, hvalue⟩
  · rintro ⟨c, ⟨before, l, after, hlines, hc, hbefore⟩, hvalue⟩
    exact ⟨before, l, after, hlines, namedIn?_eq_some.2 ⟨c, hc, hvalue⟩, fun l' hl' => (hnone l').2 (hbefore l' hl')⟩

/-- The constant that a stream names is one of its tokens. -/
theorem Names.mem {tokens : List Token} {name : Text} {c : Token} (h : Names tokens name c) :
    c ∈ tokens ∧ c.kind.isConstant := by
  obtain ⟨before, l, after, hlines, ⟨directive, word, comma, hfilter, -, -, -, -, -, hc⟩, -⟩ := h
  refine ⟨?_, hc⟩
  have hmem : c ∈ l.tokens := by
    have hvisible : c ∈ l.tokens.filter fun t => !t.isSpace := by simp [hfilter]
    exact List.mem_of_mem_filter hvisible
  rw [← Line.flatMap_all_ofTokens tokens, hlines]
  simp [Line.all, hmem]

/-! ## Replacing -/

/-- A token that stands for the same constant as another one. -/
structure IsCopy (d : Dialect) (c u : Token) : Prop where
  kind : u.kind = c.kind
  text : u.text = c.text
  value : u.valueIn d = c.valueIn d
  size : u.sizeIn d = c.sizeIn d

/-- A word that is no parameter: no backslash stands right before it. -/
def IsName (before : Option Token) (t : Token) : Prop := t.kind = .word ∧ before.any (·.isSymbol "\\") = false

/-- Tokens behind a given one in which every name that `named` gives a constant is replaced by one token that stands
for the constant at the place of the name, with the listed numbers in order, and all other tokens are kept. -/
inductive Substituted (d : Dialect) (named : Text → Token → Prop) :
    Option Token → List Int → List Token → List Token → Prop
  | nil (before : Option Token) : Substituted d named before [] [] []
  | keep {before : Option Token} {t : Token} {ids : List Int} {ts us : List Token}
      (hkeep : IsName before t → ∀ c, ¬named t.text c) (hrest : Substituted d named (some t) ids ts us) :
      Substituted d named before ids (t :: ts) (t :: us)
  | replace {before : Option Token} {t c u : Token} {ids : List Int} {ts us : List Token}
      (hname : IsName before t) (hnamed : named t.text c) (hcopy : IsCopy d c u) (hloc : u.loc = t.loc)
      (hrest : Substituted d named (some t) ids ts us) :
      Substituted d named before (u.id :: ids) (t :: ts) (u :: us)

theorem isCopy_of_bare {d : Dialect} {c u : Token} (h : u.bare = c.bare) : IsCopy d c u where
  kind := (congrArg Token.kind h :)
  text := (congrArg Token.text h :)
  value := (congrArg (fun t : Token => t.valueIn d) h :)
  size := (congrArg (fun t : Token => t.sizeIn d) h :)

/-- Names whose constants are written trees are replaced by copies with fresh numbers. -/
theorem substituted_substituteEquates {values : List (Text × Text)} {named : Text → Token → Prop}
    (hvalues : ∀ name value, values.lookup name = some value ↔ ∃ c, named name c ∧ c.text = value)
    (hnamed : ∀ name c, named name c → ∃ s : Mos6502.Spaced, s.clashes = false ∧ c.bare = s.token)
    (ctx : Context) (before : Option Token) (ts : List Token) :
    ∃ ids, Substituted Mos6502.dialect named before ids ts
        (substituteEquates Mos6502.dialect values ctx before ts).1.tokens ∧
      ids.Pairwise (· > ·) ∧
      ctx.synthetic ≤ (substituteEquates Mos6502.dialect values ctx before ts).2.synthetic ∧
      ∀ i ∈ ids, i < -(ctx.synthetic : Int) ∧
        -((substituteEquates Mos6502.dialect values ctx before ts).2.synthetic : Int) ≤ i := by
  induction ts generalizing ctx before with
  | nil => exact ⟨[], .nil before, .nil, le_rfl, by simp⟩
  | cons t ts ih =>
    rw [substituteEquates]
    simp only
    cases hvalue : if t.kind = .word ∧ before.any (·.isSymbol "\\") = false then values.lookup t.text else none with
    | none =>
      obtain ⟨ids, hrest, hids, hle, hfresh⟩ := ih ctx (some t)
      refine ⟨ids, .keep (fun hname c hc => ?_) hrest, hids, hle, hfresh⟩
      rw [if_pos (show _ ∧ _ from hname), (hvalues _ _).2 ⟨c, hc, rfl⟩] at hvalue
      cases hvalue
    | some value =>
      split_ifs at hvalue with hname
      obtain ⟨c, hc, rfl⟩ := (hvalues _ _).1 hvalue
      obtain ⟨s, hs, hbare⟩ := hnamed _ c hc
      have htext : c.text = s.text := (Token.text_of_bare hbare).trans s.text_token
      -- The constant is scanned again and takes the next number; all later ones lie below it.
      obtain ⟨u, ctx', hpseudo, hu, hloc, hid, hlt⟩ := Mos6502.Spaced.pseudoTokenize_text hs ctx t.loc
      obtain ⟨ids, hrest, hids, hle, hfresh⟩ := ih ctx' (some t)
      simp only [htext, hpseudo]
      refine ⟨u.id :: ids, .replace hname hc (isCopy_of_bare (hu.trans hbare.symm)) hloc hrest,
        .cons (fun i hi => ?_) hids, by omega, List.forall_mem_cons.2 ⟨⟨by omega, by omega⟩, fun i hi => ?_⟩⟩
      · have hi := (hfresh i hi).1
        omega
      · have hi := hfresh i hi
        omega

theorem exists_spaced_of_isScanned {t : Token} (h : t.IsScanned Mos6502.dialect) (ht : t.kind.isConstant) :
    ∃ s : Mos6502.Spaced, s.clashes = false ∧ t.bare = s.token := by
  obtain ⟨file, text, u, hu, hbare⟩ := h
  have hkind : t.kind = u.kind := (congrArg Token.kind hbare :)
  rw [hbare]
  exact Mos6502.exists_spaced_of_mem_tokenize hu (hkind ▸ ht)

/-- Without values defined beforehand, the result of the pass are the tokens outside of the lines that start with
`.equ`, in which every name that the stream gives a constant is replaced by one token that stands for the constant.
The replacements have negative numbers that are new and all different. -/
theorem substituted_equates {cfg : Config} (hd : cfg.dialect = Mos6502.dialect) (hdefines : cfg.defines = [])
    {tokens : List Token} (htokens : ∀ t ∈ tokens, t.IsScanned Mos6502.dialect) (ctx : Context) :
    ∃ ids, Substituted Mos6502.dialect (Names tokens) none ids (outsideEquates tokens)
        (equates cfg ctx tokens).1.tokens ∧
      ids.Pairwise (· > ·) ∧
      ∀ i ∈ ids, i < -(ctx.synthetic : Int) ∧ -((equates cfg ctx tokens).2.synthetic : Int) ≤ i := by
  have hnamed : ∀ name c, Names tokens name c → ∃ s : Mos6502.Spaced, s.clashes = false ∧ c.bare = s.token :=
    fun name c hc => exists_spaced_of_isScanned (htokens c hc.mem.1) hc.mem.2
  obtain ⟨ids, hsubstituted, hids, -, hfresh⟩ :=
    substituted_substituteEquates (fun _ _ => lookup_eq_some) hnamed ctx none (outsideEquates tokens)
  simp only [equates, hd, hdefines, List.append_nil, tokens_collectEquates]
  exact ⟨ids, hsubstituted, hids, hfresh⟩

/-- A name is given an expression and then another constant, and is used both as a word and as a parameter. -/
def equateSource : Text := ".equ N, ( -1 %'A')\n.EQU N,2\n LDA N,\\N\n"

theorem substituted_equates_source :
    (∀ t ∈ (Token.tokenize Mos6502.dialect "a.s" equateSource).tokens, t.IsScanned Mos6502.dialect) ∧
      Token.join (equates { dialect := Mos6502.dialect } {}
        (Token.tokenize Mos6502.dialect "a.s" equateSource).tokens).1.tokens = "\n\n LDA ( -1 %'A'),\\N\n" ∧
      ∃ ids, Substituted Mos6502.dialect (Names (Token.tokenize Mos6502.dialect "a.s" equateSource).tokens) none ids
        (outsideEquates (Token.tokenize Mos6502.dialect "a.s" equateSource).tokens)
        (equates { dialect := Mos6502.dialect } {}
          (Token.tokenize Mos6502.dialect "a.s" equateSource).tokens).1.tokens ∧ ids.Pairwise (· > ·) := by
  have hscanned : ∀ t ∈ (Token.tokenize Mos6502.dialect "a.s" equateSource).tokens, t.IsScanned Mos6502.dialect :=
    fun t ht => ⟨"a.s", equateSource, t, ht, rfl⟩
  obtain ⟨ids, hsubstituted, hids, -⟩ := @substituted_equates { dialect := Mos6502.dialect } rfl rfl _ hscanned {}
  exact ⟨hscanned, by decide +kernel, ids, hsubstituted, hids⟩

end Preprocess

end EightBit
