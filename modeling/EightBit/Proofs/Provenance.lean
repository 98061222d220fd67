import Mathlib
import EightBit.Proofs.Comments
import EightBit.Proofs.Equates

/-!
# Where preprocessed tokens come from

Passes keep tokens, drop them, or put others in their place: the tokens of a text that is substituted for a word, and
the expression that an operation is reduced to. What is put in place stands where the word or the first token of the
operation stood, so that a token always points at a token of the source, however often it was substituted. Substituted
tokens take new negative numbers, and no number is used twice.

* `Preprocess.fresh`: the numbers that are handed out between two states of the counter.
* `Preprocess.Descends`: one stream comes from another one. It is kept by reduction and by every pass.
* `Preprocess.descends_expandLine`: the lines of a macro, nested expansions included.
* `Preprocess.run_points_at_source`: where the tokens of a preprocessed file come from.
-/

namespace EightBit

/-- The file, line and column that a token points at. -/
def Token.place (t : Token) : Text × Int × Int := (t.loc.file, t.loc.line, t.loc.column)

/-- The numbers of tokens. -/
def Token.ids (ts : List Token) : Multiset Int := (ts.map Token.id : List Int)

@[simp] theorem Token.ids_append (ts us : List Token) : ids (ts ++ us) = ids ts + ids us := by
  simp [ids]

theorem Token.ids_le_of_sublist {ts us : List Token} (h : us.Sublist ts) : ids us ≤ ids ts :=
  (h.map Token.id).subperm

namespace Preprocess

/-! ## Numbers -/

/-- The numbers that are handed out while the counter of substituted tokens advances from `n` to `n'`. -/
def fresh (n n' : Nat) : Multiset Int := (Multiset.Ico n n').map fun k : Nat => -(k + 1 : Int)

@[simp] theorem fresh_self (n : Nat) : fresh n n = 0 := by simp [fresh]

theorem fresh_add {n n' n'' : Nat} (h : n ≤ n') (h' : n' ≤ n'') : fresh n n' + fresh n' n'' = fresh n n'' := by
  rw [fresh, fresh, fresh, ← Multiset.map_add, Multiset.Ico_add_Ico_eq_Ico h h']

theorem fresh_succ (n : Nat) : fresh n (n + 1) = {-(n + 1 : Int)} := by
  simp [fresh, Multiset.Ico, Nat.Ico_succ_singleton]

theorem neg_of_mem_fresh {n n' : Nat} {i : Int} (h : i ∈ fresh n n') : i < 0 := by
  obtain ⟨k, -, rfl⟩ := Multiset.mem_map.1 h
  omega

theorem nodup_fresh (n n' : Nat) : (fresh n n').Nodup := by
  refine Multiset.Nodup.map (fun k k' h => ?_) (Multiset.nodup_Ico)
  simpa using h

/-! ## Streams that come from other streams -/

/-- A stream comes from another one while the counter of substituted tokens advances from `n` to `n'`: its tokens point
at tokens of the other one, they have the numbers of these or new ones, and no number is used more often. -/
structure Descends (n n' : Nat) (ts us : List Token) : Prop where
  count : n ≤ n'
  origin : ∀ u ∈ us, ∃ t ∈ ts, u.place = t.place ∧ (u.id = t.id ∨ u.id ∈ fresh n n')
  ids : Token.ids us ≤ Token.ids ts + fresh n n'

namespace Descends

variable {n n' n'' : Nat} {ts us vs ts' us' : List Token}

/-- Tokens may be dropped. -/
theorem of_sublist (hn : n ≤ n') (h : us.Sublist ts) : Descends n n' ts us where
  count := hn
  origin := fun u hu => ⟨u, h.subset hu, rfl, .inl rfl⟩
  ids := (Token.ids_le_of_sublist h).trans (Multiset.le_add_right _ _)

theorem refl (n : Nat) (ts : List Token) : Descends n n ts ts := of_sublist le_rfl (List.Sublist.refl ts)

theorem trans (h : Descends n n' ts us) (h' : Descends n' n'' us vs) : Descends n n'' ts vs where
  count := h.count.trans h'.count
  origin := by
    intro v hv
    have hfresh := fresh_add h.count h'.count
    obtain ⟨u, hu, hplace, hid⟩ := h'.origin v hv
    obtain ⟨t, ht, hplace', hid'⟩ := h.origin u hu
    refine ⟨t, ht, hplace.trans hplace', ?_⟩
    rw [← hfresh]
    rcases hid with hid | hid
    · rw [hid]
      exact hid'.imp_right (Multiset.mem_add.2 ∘ .inl)
    · exact .inr (Multiset.mem_add.2 (.inr hid))
  ids := by
    calc Token.ids vs ≤ Token.ids us + fresh n' n'' := h'.ids
      _ ≤ Token.ids ts + fresh n n' + fresh n' n'' := by gcongr; exact h.ids
      _ = Token.ids ts + fresh n n'' := by rw [add_assoc, fresh_add h.count h'.count]

/-- Streams may be put together. -/
theorem append (h : Descends n n' ts us) (h' : Descends n' n'' ts' us') :
    Descends n n'' (ts ++ ts') (us ++ us') where
  count := h.count.trans h'.count
  origin := by
    intro u hu
    rw [← fresh_add h.count h'.count]
    rcases List.mem_append.1 hu with hu | hu
    · obtain ⟨t, ht, hplace, hid⟩ := h.origin u hu
      exact ⟨t, List.mem_append_left _ ht, hplace, hid.imp_right (Multiset.mem_add.2 ∘ .inl)⟩
    · obtain ⟨t, ht, hplace, hid⟩ := h'.origin u hu
      exact ⟨t, List.mem_append_right _ ht, hplace, hid.imp_right (Multiset.mem_add.2 ∘ .inr)⟩
  ids := by
    rw [Token.ids_append, Token.ids_append]
    calc Token.ids us + Token.ids us'
      _ ≤ (Token.ids ts + fresh n n') + (Token.ids ts' + fresh n' n'') := add_le_add h.ids h'.ids
      _ = Token.ids ts + Token.ids ts' + (fresh n n' + fresh n' n'') := add_add_add_comm _ _ _ _
      _ = Token.ids ts + Token.ids ts' + fresh n n'' := by rw [fresh_add h.count h'.count]

/-- What is there beside a stream may be ignored. -/
theorem mono (h : Descends n n' ts us) (hts : ts.Sublist ts') : Descends n n' ts' us :=
  (of_sublist le_rfl hts).trans h

/-- Nothing comes from anything. -/
theorem nil (hn : n ≤ n') : Descends n n' ts [] := of_sublist hn (List.nil_sublist ts)

end Descends

/-! ## Scanning and reduction -/

/-- An expression stands in the place of its opening bracket, and takes the number of it. -/
theorem descends_redex {d : Dialect} {r : Token.Redex} {u₀ u₁ u₂ u₃ : List Token} {o : Token}
    (hr : r.IsOperation u₀ u₁ u₂ u₃ o) (t : Token) (n : Nat) : Descends n n r.span [r.token d t] := by
  have hmem : r.opening ∈ r.span := by simp [hr.span]
  have hplace : (r.token d t).place = r.opening.place := by
    rw [Token.place, Token.Redex.token]
    simp only
    split_ifs <;> rfl
  refine ⟨le_rfl, fun u hu => ?_, ?_⟩
  · rw [List.mem_singleton.1 hu]
    exact ⟨r.opening, hmem, hplace, .inl rfl⟩
  · have hid : Token.ids [r.token d t] = Token.ids [r.opening] := rfl
    rw [hid, fresh_self, add_zero]
    exact Token.ids_le_of_sublist (List.singleton_sublist.2 hmem)

/-- Reduction puts expressions in the place of operations. -/
theorem descends_reduce (d : Dialect) (ts : List Token) (n : Nat) : Descends n n ts (Token.reduce d ts) := by
  refine Token.reduce_induction (P := Descends n n ts) ?_ (.refl n ts)
  -- One operation is replaced, its closing bracket is dropped, and what is around them is kept.
  rintro xs ys r t ⟨u₀, u₁, u₂, u₃, o, hr⟩ - h
  have hstep := ((Descends.refl n xs).append (descends_redex (d := d) hr t n)).append
    (.of_sublist le_rfl (List.sublist_cons_self t ys))
  simpa using h.trans hstep

theorem ids_pinned (loc : Location) (ctx : Context) (ls : List Lexeme) :
    Token.ids (Scan.pinned loc ctx ls).1 = fresh ctx.synthetic (Scan.pinned loc ctx ls).2.synthetic := by
  rw [Scan.synthetic_pinned]
  induction ls generalizing ctx with
  | nil => simp [Scan.pinned, Token.ids]
  | cons l ls ih =>
    have hcons : Token.ids (Scan.pinned loc ctx (l :: ls)).1 =
        {-(ctx.synthetic + 1 : Int)} + Token.ids (Scan.pinned loc ctx.nextSynthetic.2 ls).1 := rfl
    have hnext : ctx.nextSynthetic.2.synthetic = ctx.synthetic + 1 := rfl
    rw [hcons, ih, hnext, ← fresh_succ, fresh_add (Nat.le_succ _) (Nat.le_add_right _ _), List.length_cons,
      Nat.succ_add_eq_add_succ]

/-- The tokens of a text that is substituted for a token stand in the place of it, with new numbers. -/
theorem descends_pinned (t : Token) (ctx : Context) (ls : List Lexeme) :
    Descends ctx.synthetic (Scan.pinned t.loc ctx ls).2.synthetic [t] (Scan.pinned t.loc ctx ls).1 := by
  have hids := ids_pinned t.loc ctx ls
  refine ⟨by simp [Scan.synthetic_pinned], fun u hu => ⟨t, List.mem_singleton_self t, ?_, .inr ?_⟩, ?_⟩
  · rw [Token.place, Token.place, Scan.loc_of_mem_pinned _ _ _ u hu]
  · rw [← hids]
    exact List.mem_map_of_mem hu
  · rw [hids]
    exact Multiset.le_add_left _ _

theorem descends_pseudoTokenize (d : Dialect) (ctx : Context) (text : Text) (t : Token) :
    Descends ctx.synthetic (Token.pseudoTokenize d ctx text t.loc).2.synthetic [t]
      (Token.pseudoTokenize d ctx text t.loc).1.tokens := by
  have hpinned := descends_pinned t ctx (Scan.lexemes d text).1
  unfold Token.pseudoTokenize Token.Scanned.ofTokens
  simp only
  split_ifs
  · exact hpinned.trans (descends_reduce d _ _)
  · exact hpinned

/-! ## Passes that drop tokens -/

theorem sublist_of_lines {f : Line → List Token} (hf : ∀ l, (f l).Sublist l.all) (ts : List Token) :
    ((Line.ofTokens ts).flatMap f).Sublist ts := by
  have hlines : ((Line.ofTokens ts).flatMap f).Sublist ((Line.ofTokens ts).flatMap Line.all) :=
    List.Sublist.flatMap_right _ fun l _ => hf l
  rwa [Line.flatMap_all_ofTokens] at hlines

theorem sublist_imports (cfg : Config) (ts : List Token) : (imports cfg ts).tokens.Sublist ts := by
  rw [tokens_imports]
  refine sublist_of_lines (fun l => List.Sublist.append ?_ (List.Sublist.refl _)) ts
  unfold remainder
  cases himport : importIn? cfg.dialect l.tokens with
  | none => exact List.Sublist.refl _
  | some i =>
    rw [importIn?_eq] at himport
    obtain ⟨found, -, hbefore⟩ := Option.bind_eq_some_iff.1 himport
    split_ifs at hbefore
    cases hbefore
    exact List.take_sublist _ _

theorem sublist_comments (cfg : Config) (ts : List Token) : (comments cfg ts).tokens.Sublist ts := by
  rw [(comments_spec cfg ts).1]
  exact sublist_of_lines (fun l => (List.takeWhile_sublist _).append (List.Sublist.refl _)) ts

theorem sublist_collectEquates (ts : List Token) :
    (collectEquates [] (Line.ofTokens ts)).1.tokens.Sublist ts := by
  rw [tokens_collectEquates]
  refine sublist_of_lines (fun l => ?_) ts
  split_ifs
  · exact List.sublist_append_right _ _
  · exact List.Sublist.refl _

/-! ## Equates -/

theorem descends_substituteEquates (d : Dialect) (values : List (Text × Text)) (ctx : Context) (before : Option Token)
    (ts : List Token) :
    Descends ctx.synthetic (substituteEquates d values ctx before ts).2.synthetic ts
      (substituteEquates d values ctx before ts).1.tokens := by
  induction ts generalizing ctx before with
  | nil => exact .refl _ _
  | cons t ts ih =>
    unfold substituteEquates
    simp only
    split
    next => exact (Descends.refl _ [t]).append (ih ctx (some t))
    next value _ =>
      have hscanned := descends_pseudoTokenize d ctx value t
      have hrest := ih (Token.pseudoTokenize d ctx value t.loc).2 (some t)
      split
      next => exact hscanned.append hrest
      -- A value that does not scan uses up numbers, but the word is kept.
      next => exact (Descends.of_sublist hscanned.count (List.Sublist.refl [t])).append hrest

theorem descends_equates (cfg : Config) (ctx : Context) (ts : List Token) :
    Descends ctx.synthetic (equates cfg ctx ts).2.synthetic ts (equates cfg ctx ts).1.tokens :=
  (descends_substituteEquates cfg.dialect _ ctx none _).mono (sublist_collectEquates ts)

/-! ## Macros -/

theorem eq_append_of_siteAt? {before rest : List Token} {s : Site} (h : siteAt? before rest = some s) :
    before ++ rest = s.before ++ s.name :: s.args := by
  unfold siteAt? at h
  split at h
  · split_ifs at h
    cases h
    rfl
  · cases h

theorem eq_append_of_site? {line : List Token} {s : Site} (h : site? line = some s) :
    line = s.before ++ s.name :: s.args := by
  have hline := List.takeWhile_append_dropWhile (p := Token.isSpace) (l := line)
  unfold site? at h
  simp only at h
  split at h
  next label colon rest hdrop =>
    rw [hdrop] at hline
    split_ifs at h
    · rw [← eq_append_of_siteAt? h, List.append_assoc, List.cons_append, List.cons_append,
        List.takeWhile_append_dropWhile, hline]
    · rw [← eq_append_of_siteAt? h, hline]
  next => rw [← eq_append_of_siteAt? h, hline]

/-- An invocation stands in its line. -/
theorem eq_append_of_invocation? {macros : List Macro} {line before args : List Token} {m : Macro} {name : Token}
    (h : invocation? macros line = some (before, m, name, args)) : line = before ++ name :: args := by
  rw [invocation?_eq] at h
  obtain ⟨s, hsite, hfound⟩ := Option.bind_eq_some_iff.1 h
  obtain ⟨_, -, heq⟩ := Option.map_eq_some_iff.1 hfound
  cases heq
  exact eq_append_of_site? hsite

/-- The lines of a stream one after the other, each of which a step yields something for. -/
theorem descends_foldl_lines {step : Context → List Token → Output × Context}
    (hstep : ∀ ctx ts, Descends ctx.synthetic (step ctx ts).2.synthetic ts (step ctx ts).1.tokens)
    (lines : List Line) {n : Nat} {ts : List Token} (acc : Output × Context)
    (hacc : Descends n acc.2.synthetic ts acc.1.tokens) :
    Descends n (lines.foldl (fun (acc : Output × Context) l =>
        let (out, ctx) := step acc.2 l.tokens
        (acc.1 ++ out ++ { tokens := l.newline.toList }, ctx)) acc).2.synthetic (ts ++ lines.flatMap Line.all)
      (lines.foldl (fun (acc : Output × Context) l =>
        let (out, ctx) := step acc.2 l.tokens
        (acc.1 ++ out ++ { tokens := l.newline.toList }, ctx)) acc).1.tokens := by
  induction lines generalizing ts acc with
  | nil => simpa using hacc
  | cons l lines ih =>
    have hline := (hacc.append (hstep acc.2 l.tokens)).append (.refl _ l.newline.toList)
    have hrest := ih (acc.1 ++ (step acc.2 l.tokens).1 ++ { tokens := l.newline.toList }, (step acc.2 l.tokens).2)
      hline
    simpa [Line.all] using hrest

/-- A line comes from its tokens, however deep macros invoke macros in it. -/
theorem descends_expandLine (d : Dialect) (macros : List Macro) (depth : Nat) (ctx : Context) (line : List Token) :
    Descends ctx.synthetic (expandLine d macros depth ctx line).2.synthetic line
      (expandLine d macros depth ctx line).1.tokens := by
  induction depth generalizing ctx line with
  | zero =>
    unfold expandLine
    split
    next => exact .refl _ _
    next before m name args hfound =>
      exact .of_sublist le_rfl (eq_append_of_invocation? hfound ▸ List.sublist_append_left before _)
  | succ depth ih =>
    unfold expandLine
    split
    next => exact .refl _ _
    next before m name args hfound =>
      have hbefore : before.Sublist line :=
        eq_append_of_invocation? hfound ▸ List.sublist_append_left before _
      have hname : (before ++ [name]).Sublist line :=
        eq_append_of_invocation? hfound ▸ (List.Sublist.refl before).append (by simp)
      simp only
      split
      next => exact .of_sublist le_rfl hbefore
      next =>
        split
        next => exact .of_sublist le_rfl hbefore
        next text _ =>
          have hscanned := descends_pseudoTokenize d ctx.nextExpansion.2 text name
          split
          next => exact .of_sublist hscanned.count hbefore
          next =>
            -- The body stands in the place of the name, and its lines are expanded in turn.
            refine (((Descends.refl ctx.synthetic before).append hscanned).mono hname).trans ?_
            have hlines := descends_foldl_lines ih
              (Line.ofTokens (Token.pseudoTokenize d ctx.nextExpansion.2 text name.loc).1.tokens)
              ({ tokens := before, consumed := [⟨.expansion, m.name, name :: args⟩] },
                (Token.pseudoTokenize d ctx.nextExpansion.2 text name.loc).2) (Descends.refl _ before)
            rwa [Line.flatMap_all_ofTokens] at hlines

theorem tokens_openMacro (l : Line) : (openMacro l).2.tokens = l.newline.toList := by
  unfold openMacro
  split
  · rfl
  · simp only [Output.append_tokens]
    split_ifs <;> simp

theorem tokens_close (o : OpenMacro) (macros : List Macro) (l : Line) : (o.close macros l).2.tokens = [] := by
  unfold OpenMacro.close
  split
  next => rfl
  next =>
    split
    next => rfl
    next => split <;> rfl

/-- Definitions are dropped but for the newlines behind their first lines. -/
theorem descends_expandLines (d : Dialect) (macros : List Macro) (ctx : Context) (opened : Option OpenMacro)
    (lines : List Line) :
    Descends ctx.synthetic (expandLines d macros ctx opened lines).2.synthetic (lines.flatMap Line.all)
      (expandLines d macros ctx opened lines).1.tokens := by
  induction lines generalizing macros ctx opened with
  | nil => cases opened <;> exact .refl _ _
  | cons l lines ih =>
    have hdropped : Descends ctx.synthetic ctx.synthetic l.all [] := .nil le_rfl
    have hnewline : Descends ctx.synthetic ctx.synthetic l.all l.newline.toList :=
      .of_sublist le_rfl (List.sublist_append_right _ _)
    rw [List.flatMap_cons]
    cases opened with
    | some o =>
      unfold expandLines
      split
      next => simpa [tokens_close] using hdropped.append (ih (o.close macros l).1 ctx none)
      next =>
        have hreport : (if startsWith l.tokens ".macro" then Output.error .macroNesting l.tokens else {}).tokens =
            [] := by split_ifs <;> rfl
        simpa [hreport] using hdropped.append (ih macros ctx _)
    | none =>
      unfold expandLines
      split
      next => simpa [tokens_openMacro] using hnewline.append (ih macros ctx (some (openMacro l).1))
      next =>
        split
        next => simpa [Output.error] using hnewline.append (ih macros ctx none)
        next =>
          have hline := (descends_expandLine d macros macroDepthLimit ctx l.tokens).append (.refl _ l.newline.toList)
          exact hline.append (ih macros _ none)

/-! ## The preprocessor -/

/-- Every pass yields a stream that comes from the one before. -/
theorem descends_pass (cfg : Config) (ctx : Context) (ts : List Token) (p : Pass) :
    Descends ctx.synthetic (p.run cfg ctx ts).2.synthetic ts (p.run cfg ctx ts).1.tokens := by
  cases p with
  | imports => exact .of_sublist le_rfl (sublist_imports cfg ts)
  | comments => exact .of_sublist le_rfl (sublist_comments cfg ts)
  | equates => exact descends_equates cfg ctx ts
  | macros =>
    have hlines := descends_expandLines cfg.dialect [] ctx none (Line.ofTokens ts)
    rwa [Line.flatMap_all_ofTokens] at hlines
  | reduce => exact descends_reduce cfg.dialect ts ctx.synthetic

theorem descends_run (cfg : Config) (file : Text) (ts : List Token) :
    Descends 0 (run cfg file ts).context.synthetic ts (run cfg file ts).output.tokens := by
  have hfold : ∀ (ps : List Pass) (r : Preprocessed), Descends 0 r.context.synthetic ts r.output.tokens →
      Descends 0 (ps.foldl (step cfg) r).context.synthetic ts (ps.foldl (step cfg) r).output.tokens := by
    intro ps
    induction ps with
    | nil => exact fun r hr => hr
    | cons p ps ih => exact fun r hr => ih _ (hr.trans (descends_pass cfg r.context r.output.tokens p))
  exact hfold Pass.all (start file ts) (.refl 0 ts)

/-- The tokens of a source file are numbered from zero on. -/
theorem ids_located (file : Text) (p : Scan.Position) (id : Nat) (ls : List Lexeme) :
    (Scan.located file p id ls).map Token.id = (List.range' id ls.length).map Int.ofNat := by
  induction ls generalizing p id with
  | nil => rfl
  | cons l ls ih => simp [Scan.located, List.range'_succ, ih]

/-- No two tokens of a source file have the same number, and the numbers are not negative. -/
theorem ids_tokenize (d : Dialect) (file text : Text) :
    (Token.ids (Token.tokenize d file text).tokens).Nodup ∧
      ∀ i ∈ Token.ids (Token.tokenize d file text).tokens, 0 ≤ i := by
  have hdescends : Descends 0 0 (Scan.located file {} 0 (Scan.lexemes d text).1)
      (Token.tokenize d file text).tokens := by
    unfold Token.tokenize Token.Scanned.ofTokens
    simp only
    split_ifs
    · exact descends_reduce d _ 0
    · exact .refl 0 _
  -- The counter stands still, so that all numbers are those of what was scanned.
  have hids := hdescends.ids
  rw [fresh_self, add_zero, Token.ids, Token.ids, ids_located] at hids
  refine ⟨Multiset.nodup_of_le hids ?_, fun i hi => ?_⟩
  · exact List.Nodup.map Int.ofNat_injective List.nodup_range'
  · obtain ⟨k, -, rfl⟩ := List.mem_map.1 (Multiset.mem_of_le hids hi)
    exact Int.natCast_nonneg k

/-- Every token of a preprocessed file points at a token of the source: it is at the file, line and column of a token
that has the same number, or it was substituted there and has a negative number. No two tokens have the same number. -/
theorem run_points_at_source (d : Dialect) (name text : Text) (cfg : Config) (file : Text) :
    (∀ u ∈ (run cfg file (Token.tokenize d name text).tokens).output.tokens,
      ∃ t ∈ (Token.tokenize d name text).tokens,
        (u.loc.file = t.loc.file ∧ u.loc.line = t.loc.line ∧ u.loc.column = t.loc.column) ∧
          (u.id = t.id ∨ u.id < 0)) ∧
      ((run cfg file (Token.tokenize d name text).tokens).output.tokens.map Token.id).Nodup := by
  have hdescends := descends_run cfg file (Token.tokenize d name text).tokens
  obtain ⟨hnodup, hnonneg⟩ := ids_tokenize d name text
  constructor
  · intro u hu
    obtain ⟨t, ht, hplace, hid⟩ := hdescends.origin u hu
    simp only [Token.place, Prod.mk.injEq] at hplace
    exact ⟨t, ht, hplace, hid.imp_right neg_of_mem_fresh⟩
  · refine Multiset.coe_nodup.1 (Multiset.nodup_of_le hdescends.ids ?_)
    -- Numbers of the source and new ones differ in their signs.
    refine Multiset.Nodup.add_iff hnodup (nodup_fresh _ _) |>.2 ?_
    rw [Multiset.disjoint_left]
    intro i hi hfresh
    have hpos := hnonneg i hi
    have hneg := neg_of_mem_fresh hfresh
    omega

/-- A macro whose argument is a value defined beforehand, invoked by another macro behind a label. -/
def layeredSource : Text :=
  (".equ N, 3 ; three\n.macro inner p\n .byte (\\p+N)\n.endm\n" : Text) ++
    (".macro outer\n inner K\n.endm\nl: outer\n" : Text)

/-- The 6502 syntax with the value that the macro is given. -/
def layeredConfig : Config := { dialect := Mos6502.dialect, defines := [("K", "(1+1)")] }

/-- The operand was substituted twice and reduced twice, and points at the invocation in the last line. -/
theorem run_points_at_source_layered :
    (∃ u ∈ (run layeredConfig "a.s" (Token.tokenize Mos6502.dialect "a.s" layeredSource).tokens).output.tokens,
      (u.text = ("((1+1)+3)" : Text) ∧ u.kind = .expression ∧ u.id < 0) ∧
        ∃ t ∈ (Token.tokenize Mos6502.dialect "a.s" layeredSource).tokens,
          (u.loc.file = t.loc.file ∧ u.loc.line = t.loc.line ∧ u.loc.column = t.loc.column) ∧
            (u.id = t.id ∨ u.id < 0)) ∧
      ((run layeredConfig "a.s" (Token.tokenize Mos6502.dialect "a.s" layeredSource).tokens).output.tokens.map
        Token.id).Nodup := by
  have hoperand : ∃ u ∈ (run layeredConfig "a.s"
      (Token.tokenize Mos6502.dialect "a.s" layeredSource).tokens).output.tokens,
        u.text = ("((1+1)+3)" : Text) ∧ u.kind = .expression ∧ u.id < 0 := by
    decide +kernel
  obtain ⟨hplaces, hnodup⟩ := run_points_at_source Mos6502.dialect "a.s" layeredSource layeredConfig "a.s"
  obtain ⟨u, hu, hsubstituted⟩ := hoperand
  exact ⟨⟨u, hu, hsubstituted, hplaces u hu⟩, hnodup⟩

end Preprocess

end EightBit
