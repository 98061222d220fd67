import Mathlib
import EightBit.Proofs.Renumbering

/-!
# Comments

What stands behind a comment marker does not matter to the preprocessor: tokens, imports and reports are those
of the stream without its comments. The pass that removes comments comes second, but the one before it, which
looks for imports, leaves comments alone by itself. There is one exception: where the marker is taken for a part
of an import, it starts no comment.

* `Preprocess.uncommented`: a token stream without its comments.
* `Preprocess.marksImport`: whether the marker of a line is taken for a part of an import.
* `Preprocess.importIn?_code`: an import is found in a line exactly if it is found in the line without its
  comment.
* `Preprocess.run_agrees_of_uncommented`: streams that differ in comments and numbers only.
-/

namespace EightBit

/-! ## Lines of streams with changed lines -/

namespace Line

/-- Lines of which every one but the last ends with a newline, and which have no others. -/
inductive Divided : List Line → Prop
  | nil : Divided []
  | last {ts : List Token} (hts : ∀ t ∈ ts, t.isNewline = false) : Divided [⟨ts, none⟩]
  | cons {ts : List Token} {newline : Token} {lines : List Line} (hts : ∀ t ∈ ts, t.isNewline = false)
    (hnewline : newline.isNewline) (hlines : Divided lines) : Divided (⟨ts, some newline⟩ :: lines)

theorem divided_ofTokens (ts : List Token) : Divided (ofTokens ts) := by
  induction ts with
  | nil => exact .nil
  | cons t ts ih =>
    rw [ofTokens]
    split_ifs with ht
    · exact .cons (by simp) ht ih
    · have ht' : t.isNewline = false := Bool.eq_false_iff.2 ht
      cases hlines : ofTokens ts with
      | nil => exact .last (by simpa using ht')
      | cons l lines =>
        rw [hlines] at ih
        cases ih with
        | last hts => exact .last (List.forall_mem_cons.2 ⟨ht', hts⟩)
        | cons hts hnewline hrest => exact .cons (List.forall_mem_cons.2 ⟨ht', hts⟩) hnewline hrest

theorem ofTokens_append_newline {ts : List Token} (hts : ∀ t ∈ ts, t.isNewline = false) {newline : Token}
    (hnewline : newline.isNewline) (rest : List Token) :
    ofTokens (ts ++ newline :: rest) = ⟨ts, some newline⟩ :: ofTokens rest := by
  induction ts with
  | nil => simp [ofTokens, hnewline]
  | cons t ts ih =>
    rw [List.cons_append, ofTokens, ih fun u hu => hts u (List.mem_cons_of_mem t hu),
      if_neg (by simp [hts t List.mem_cons_self])]

theorem ofTokens_of_line {t : Token} {ts : List Token} (hts : ∀ u ∈ t :: ts, u.isNewline = false) :
    ofTokens (t :: ts) = [⟨t :: ts, none⟩] := by
  induction ts generalizing t with
  | nil => simp [ofTokens, hts t List.mem_cons_self]
  | cons u ts ih =>
    rw [ofTokens, ih fun v hv => hts v (List.mem_cons_of_mem t hv), if_neg (by simp [hts t List.mem_cons_self])]

/-- The lines of a stream whose lines lost some tokens are these lines; only the last one may vanish. -/
theorem flatMap_ofTokens {α : Type} {f : List Token → List Token} (hf : ∀ ts, ∀ t ∈ f ts, t ∈ ts)
    {g : Line → List α} (hg : g ⟨[], none⟩ = []) (ts : List Token) :
    (ofTokens ((ofTokens ts).flatMap fun l => f l.tokens ++ l.newline.toList)).flatMap g =
      (ofTokens ts).flatMap fun l => g ⟨f l.tokens, l.newline⟩ := by
  have hdivided := divided_ofTokens ts
  generalize ofTokens ts = lines at hdivided ⊢
  induction hdivided with
  | nil => rfl
  | @last line hline =>
    have hline' : ∀ t ∈ f line, t.isNewline = false := fun t ht => hline t (hf line t ht)
    -- A last line of which nothing is left is no line any more, but it yields nothing either.
    cases hempty : f line with
    | nil => simp [ofTokens, hempty, hg]
    | cons t rest => simp [hempty, ofTokens_of_line (hempty ▸ hline')]
  | @cons line newline lines hline hnewline _ ih =>
    have hline' : ∀ t ∈ f line, t.isNewline = false := fun t ht => hline t (hf line t ht)
    rw [List.flatMap_cons, Option.toList_some, List.append_assoc, List.singleton_append,
      ofTokens_append_newline hline' hnewline, List.flatMap_cons, List.flatMap_cons, ih]

end Line

/-- Whether a token starts a comment. -/
def Dialect.marks (d : Dialect) (t : Token) : Bool := !d.comment.isEmpty && t.isSymbol d.comment

theorem Dialect.isSpace_of_marks {d : Dialect} {t : Token} (h : d.marks t) : t.isSpace = false := by
  simp only [Dialect.marks, Token.isSymbol, Bool.and_eq_true, beq_iff_eq] at h
  simp [Token.isSpace, TokenKind.isSpace, h.2.1]

namespace Preprocess

theorem isCommented_eq_any (d : Dialect) (ts : List Token) : isCommented d ts = ts.any d.marks := by
  have hmarks : d.marks = fun t => !d.comment.isEmpty && t.isSymbol d.comment := rfl
  rw [hmarks]
  cases hempty : List.isEmpty d.comment <;> simp [isCommented, hempty]

/-- The tokens of a line in front of its first comment marker. -/
def code (d : Dialect) (line : List Token) : List Token := line.takeWhile fun t => !d.marks t

theorem mem_of_mem_code {d : Dialect} {line : List Token} {t : Token} (h : t ∈ code d line) :
    t ∈ line ∧ d.marks t = false :=
  ⟨( List.takeWhile_prefix _).subset h, by simpa using List.mem_takeWhile_imp h⟩

theorem code_code (d : Dialect) (line : List Token) : code d (code d line) = code d line :=
  List.takeWhile_eq_self_iff.2 fun t ht => by simp [(mem_of_mem_code ht).2]

/-- A line is its code, or its code with a marker behind it and what follows. -/
theorem eq_code_or (d : Dialect) (line : List Token) :
    line = code d line ∨ ∃ t rest, d.marks t ∧ line = code d line ++ t :: rest := by
  have hline : code d line ++ line.dropWhile (fun t => !d.marks t) = line := List.takeWhile_append_dropWhile
  cases hrest : line.dropWhile fun t => !d.marks t with
  | nil =>
    rw [hrest, List.append_nil] at hline
    exact .inl hline.symm
  | cons t rest =>
    have hhead := List.head?_dropWhile_not (fun t => !d.marks t) line
    rw [hrest] at hline hhead
    exact .inr ⟨t, rest, by simpa using hhead, hline.symm⟩

/-- A token stream without its comments: in every line, the first comment marker and everything behind it up to
the newline is deleted. -/
def uncommented (d : Dialect) (ts : List Token) : List Token :=
  (Line.ofTokens ts).flatMap fun l => code d l.tokens ++ l.newline.toList

/-- Whether an import starts with the first token of a line. -/
def startsImport : List Token → Bool
  | a :: b :: _ => a.text == ("#" : Text) && b.is "import"
  | _ => false

/-- Whether the first comment marker of a line is a part of its first import. -/
def marksImport (d : Dialect) : List Token → Bool
  | [] => false
  | t :: rest =>
    if startsImport (t :: rest) then
      d.marks t || rest.head?.any d.marks || (importFull.matchStart (t :: rest)).any (·.tokens.any d.marks)
    else !d.marks t && marksImport d rest

/-! ## The passes by their lines -/

/-- The pass that removes comments yields the stream without them, and reports nothing. -/
theorem comments_spec (cfg : Config) (ts : List Token) :
    (comments cfg ts).tokens = uncommented cfg.dialect ts ∧ (comments cfg ts).diagnostics = [] := by
  have hmarks : ∀ t, cfg.dialect.marks t = (!cfg.dialect.comment.isEmpty && t.isSymbol cfg.dialect.comment) :=
    fun _ => rfl
  rw [comments]
  split_ifs with hempty
  · -- Without a marker, every line is kept.
    refine ⟨?_, rfl⟩
    have hcode : ∀ line, code cfg.dialect line = line := by
      intro line
      simp [code, hmarks, hempty]
    simp only [uncommented, hcode]
    exact (Line.flatMap_all_ofTokens ts).symm
  · have hcode : ∀ line, code cfg.dialect line = line.takeWhile fun t => !t.isSymbol cfg.dialect.comment := by
      intro line
      simp [code, hmarks, hempty]
    rw [Output.concat_tokens, Output.concat_diagnostics, List.flatMap_map, List.flatMap_map]
    simp only [uncommented, hcode]
    exact ⟨rfl, by simp [commentLine]⟩

/-- What remains of a line without its import. -/
def remainder (d : Dialect) (line : List Token) : List Token :=
  ((importIn? d line).map ImportLine.before).getD line

theorem tokens_importOutput (cfg : Config) (i : ImportLine) : (importOutput cfg i).tokens = [] := by
  unfold importOutput
  split_ifs
  · rfl
  · cases findImport cfg i.name <;> rfl

theorem tokens_imports (cfg : Config) (ts : List Token) :
    (imports cfg ts).tokens =
      (Line.ofTokens ts).flatMap fun l => remainder cfg.dialect l.tokens ++ l.newline.toList := by
  rw [imports, Output.concat_tokens, List.flatMap_map]
  refine List.flatMap_congr fun l _ => ?_
  rw [importLine, remainder]
  cases importIn? cfg.dialect l.tokens with
  | none => rfl
  | some i => exact congrArg (· ++ (i.before ++ l.newline.toList)) (tokens_importOutput cfg i)

/-! ## Imports in lines with comments -/

theorem head?_trim (ts : List Token) : (Token.trim ts).head? = (ts.dropWhile Token.isSpace).head? := by
  rw [Token.trim]
  cases hdrop : ts.dropWhile Token.isSpace with
  | nil => rfl
  | cons t rest =>
    have ht := Pattern.isSpace_head_dropWhile hdrop
    have hlast : Token.trimRight (t :: rest) = t :: Token.trimRight rest := by
      rw [Token.trimRight, Token.trimRight, List.reverse_cons, List.dropWhile_append]
      split_ifs with hempty
      · simp [ht, List.isEmpty_iff.1 hempty]
      · simp
    rw [hlast]
    rfl

theorem trailing_eq (d : Dialect) (ts : List Token) :
    (ts.isEmpty || isCommented d (ts.take 1)) = ts.head?.all d.marks := by
  cases ts <;> simp [isCommented_eq_any]

theorem all_head?_dropWhile {d : Dialect} {t : Token} (ht : d.marks t) (ts rest : List Token) :
    ((ts ++ t :: rest).dropWhile Token.isSpace).head?.all d.marks =
      (ts.dropWhile Token.isSpace).head?.all d.marks := by
  rw [List.dropWhile_append]
  cases hdrop : ts.dropWhile Token.isSpace with
  | nil => simp [Dialect.isSpace_of_marks ht, ht]
  | cons u more => rfl

theorem matchStart_importFull (ts : List Token) : importFull.matchStart ts =
    (Pattern.take? true importFull.components ts).map fun (n, matched) => ⟨0, n, matched⟩ :=
  rfl

/-- A comment may follow the name of an import, and it starts with the first token that is no blank. -/
theorem importName_append {d : Dialect} {ts rest : List Token} {t : Token} (hts : ∀ u ∈ ts, d.marks u = false)
    (ht : d.marks t) (h : (importFull.matchStart (ts ++ t :: rest)).any (·.tokens.any d.marks) = false) :
    importName d ts = importName d (ts ++ t :: rest) := by
  have htake : Pattern.take? true importFull.components (ts ++ t :: rest) =
      Pattern.take? true importFull.components ts := by
    refine Option.ext fun ⟨n, matched⟩ => ?_
    by_cases hmem : t ∈ matched
    · -- The marker is not accepted here, and it is not among the tokens there.
      refine iff_of_false (fun hlong => ?_) fun hshort => ?_
      · rw [matchStart_importFull, hlong] at h
        have hany : matched.any d.marks = false := h
        exact List.any_eq_false.1 hany t hmem ht
      · have hin := Pattern.tokens_take? hshort ▸ hmem
        have hts' := hts t (List.mem_of_mem_take (List.mem_of_mem_filter hin))
        exact Bool.false_ne_true (hts'.symm.trans ht)
    · exact Pattern.take?_append_iff (Dialect.isSpace_of_marks ht) hmem
  have hmatch : importFull.matchStart (ts ++ t :: rest) = importFull.matchStart ts := by
    rw [matchStart_importFull, matchStart_importFull, htake]
  rw [importName, importName, hmatch]
  cases hshort : importFull.matchStart ts with
  | none => rfl
  | some m =>
    obtain ⟨⟨n, matched⟩, hn, rfl⟩ := Option.map_eq_some_iff.1 hshort
    have hle := Pattern.le_length_of_take? hn
    simp only [trailing_eq, List.drop_append_of_le_length hle, head?_trim, all_head?_dropWhile ht]

/-- The name of an import does not depend on a comment behind it. -/
theorem importName_code {d : Dialect} {line : List Token}
    (h : (importFull.matchStart line).any (·.tokens.any d.marks) = false) :
    importName d (code d line) = importName d line := by
  obtain heq | ⟨t, rest, ht, heq⟩ := eq_code_or d line
  · rw [← heq]
  · have hts : ∀ u ∈ code d line, d.marks u = false := fun u hu => (mem_of_mem_code hu).2
    generalize code d line = ts at heq hts ⊢
    subst heq
    exact importName_append hts ht h

theorem matchStart_importStart (ts : List Token) :
    importStart.matchStart ts = if startsImport ts then some ⟨0, 2, ts.take 2⟩ else none := by
  rcases ts with _ | ⟨a, _ | ⟨b, rest⟩⟩
  · rfl
  · simp [importStart, Pattern.matchStart, Pattern.take?, Pattern.tight, Pattern.ignored, startsImport]
  · cases hstarts : startsImport (a :: b :: rest) <;>
      simp_all [importStart, Pattern.matchStart, Pattern.take?, Pattern.tight, Pattern.ignored, startsImport,
        Component.exactly, Component.folded, Component.accepts, Token.is]

theorem importIn?_cons (d : Dialect) (t : Token) (rest : List Token) :
    importIn? d (t :: rest) =
      if startsImport (t :: rest) then some ⟨[], t :: rest, importName d (t :: rest)⟩
      else if d.marks t then none
      else (importIn? d rest).map fun i => { i with before := t :: i.before } := by
  have hstarts : importStart.startsOn t = true := rfl
  rw [importIn?_eq, importIn?_eq, Pattern.matchAnywhere, hstarts, if_pos rfl, matchStart_importStart]
  by_cases hstart : startsImport (t :: rest)
  · rw [if_pos hstart, if_pos hstart]
    simp [isCommented_eq_any]
  · rw [if_neg hstart, if_neg hstart]
    simp only [Option.bind_map, Function.comp_def, Match.shift, List.take_succ_cons, List.drop_succ_cons,
      isCommented_eq_any, List.any_cons]
    cases d.marks t with
    | true => simp
    | false =>
      rw [if_neg Bool.false_ne_true, Option.map_bind]
      refine Option.bind_congr fun found _ => ?_
      simp only [Bool.false_or, Function.comp_apply]
      split_ifs <;> rfl

/-- An import is found in a line exactly if it is found in its code, with the same name and the same tokens
before it. -/
theorem importIn?_code {d : Dialect} {line : List Token} (h : marksImport d line = false) :
    (importIn? d (code d line)).map (fun i => (i.before, i.name)) =
      (importIn? d line).map fun i => (i.before, i.name) := by
  induction line with
  | nil => rfl
  | cons t rest ih =>
    rw [marksImport] at h
    by_cases hstart : startsImport (t :: rest)
    · -- The import is in front of the marker, so that it starts the code too.
      rw [if_pos hstart, Bool.or_eq_false_iff, Bool.or_eq_false_iff] at h
      cases rest with
      | nil => cases hstart
      | cons u rest =>
        obtain ⟨⟨ht, hu⟩, hfull⟩ := h
        have hcode : code d (t :: u :: rest) = t :: u :: code d rest := by
          have hu' : d.marks u = false := hu
          simp [code, ht, hu']
        have hstart' : startsImport (t :: u :: code d rest) := hstart
        have hname := importName_code hfull
        rw [hcode] at hname ⊢
        rw [importIn?_cons, if_pos hstart', importIn?_cons d t (u :: rest), if_pos hstart, hname]
        rfl
    · rw [if_neg hstart] at h
      rw [importIn?_cons, if_neg hstart]
      cases hmarks : d.marks t with
      | true => simp [code, hmarks, importIn?_eq, Pattern.matchAnywhere]
      | false =>
        have hcode : code d (t :: rest) = t :: code d rest := by simp [code, hmarks]
        have hstart' : ¬ startsImport (t :: code d rest) := by
          cases rest with
          | nil => simp [code, startsImport]
          | cons u rest =>
            cases hu : d.marks u with
            | true => simp [code, hu, startsImport]
            | false => simpa [code, hu, startsImport] using hstart
        rw [hcode, importIn?_cons, if_neg hstart', hmarks, if_neg Bool.false_ne_true, if_neg Bool.false_ne_true,
          Option.map_map, Option.map_map]
        have hrest := congrArg (Option.map (Prod.map (t :: ·) id)) (ih (by simpa [hmarks] using h))
        rwa [Option.map_map, Option.map_map] at hrest

/-- What a line imports and reports is told by the name of its import. -/
theorem importLine_congr (cfg : Config) {l l' : Line}
    (h : (importIn? cfg.dialect l.tokens).map ImportLine.name =
      (importIn? cfg.dialect l'.tokens).map ImportLine.name) :
    (importLine cfg l).imports = (importLine cfg l').imports ∧
      (importLine cfg l).diagnostics.map Diagnostic.report =
        (importLine cfg l').diagnostics.map Diagnostic.report := by
  have houtput : ∀ i i' : ImportLine, i.name = i'.name →
      (importOutput cfg i).imports = (importOutput cfg i').imports ∧
        (importOutput cfg i).diagnostics.map Diagnostic.report =
          (importOutput cfg i').diagnostics.map Diagnostic.report := by
    intro i i' hname
    unfold importOutput
    rw [hname]
    split_ifs
    · exact ⟨rfl, rfl⟩
    · cases findImport cfg i'.name <;> exact ⟨rfl, rfl⟩
  rw [importLine, importLine]
  cases hleft : importIn? cfg.dialect l.tokens with
  | none =>
    rw [hleft, Option.map_none, eq_comm, Option.map_eq_none_iff] at h
    rw [h]
    exact ⟨rfl, rfl⟩
  | some i =>
    rw [hleft, Option.map_some, eq_comm, Option.map_eq_some_iff] at h
    obtain ⟨i', hright, hname⟩ := h
    obtain ⟨himports, hreports⟩ := houtput i i' hname.symm
    rw [hright]
    simp only [Output.append_imports, Output.append_diagnostics, List.append_nil]
    exact ⟨himports, hreports⟩

theorem code_remainder_code {d : Dialect} {line : List Token} (h : marksImport d line = false) :
    code d (remainder d (code d line)) = code d (remainder d line) := by
  have hbefore : (importIn? d (code d line)).map ImportLine.before = (importIn? d line).map ImportLine.before := by
    have hfst := congrArg (Option.map Prod.fst) (importIn?_code h)
    rwa [Option.map_map, Option.map_map] at hfst
  rw [remainder, remainder, hbefore]
  cases (importIn? d line).map ImportLine.before with
  | none => exact code_code d line
  | some before => rfl

theorem mem_of_mem_remainder {d : Dialect} {line : List Token} {t : Token} (h : t ∈ remainder d line) :
    t ∈ line := by
  rw [remainder] at h
  cases hline : importIn? d line with
  | none => rwa [hline] at h
  | some i =>
    rw [hline] at h
    rw [importIn?_eq] at hline
    obtain ⟨found, -, hi⟩ := Option.bind_eq_some_iff.1 hline
    split_ifs at hi
    cases hi
    exact List.mem_of_mem_take h

/-! ## All passes -/

/-- What the first two passes yield. -/
theorem foldl_imports_comments (cfg : Config) (file : Text) (ts : List Token) :
    let r := [Pass.imports, .comments].foldl (step cfg) (start file ts)
    r.output.tokens = uncommented cfg.dialect (imports cfg ts).tokens ∧
      r.output.imports = (imports cfg ts).imports ∧ r.output.diagnostics = (imports cfg ts).diagnostics ∧
      r.context = {} := by
  simp [step, Pass.run, start, comments_spec, (isPlain_comments cfg _).imports]

/-- The tokens after the first two passes, by the lines before them. -/
theorem uncommented_imports (cfg : Config) (ts : List Token) :
    uncommented cfg.dialect (imports cfg ts).tokens =
      (Line.ofTokens ts).flatMap fun l =>
        code cfg.dialect (remainder cfg.dialect l.tokens) ++ l.newline.toList := by
  rw [tokens_imports, uncommented,
    Line.flatMap_ofTokens (fun _ _ => mem_of_mem_remainder) (by rfl : code cfg.dialect [] ++ [] = [])]

/-- After the first two passes, the comments of a stream do not matter. -/
theorem agrees_uncommented (cfg : Config) (file : Text) {ts : List Token}
    (hmarks : ∀ l ∈ Line.ofTokens ts, marksImport cfg.dialect l.tokens = false) :
    ([.imports, .comments].foldl (step cfg) (start file ts)).Agrees
      ([.imports, .comments].foldl (step cfg) (start file (uncommented cfg.dialect ts))) := by
  obtain ⟨htokens, himports, hreports, hcontext⟩ := foldl_imports_comments cfg file ts
  obtain ⟨htokens', himports', hreports', hcontext'⟩ :=
    foldl_imports_comments cfg file (uncommented cfg.dialect ts)
  -- A line and its code import the same file, since no marker is a part of the import.
  have hname : ∀ l ∈ Line.ofTokens ts, (importIn? cfg.dialect l.tokens).map ImportLine.name =
      (importIn? cfg.dialect (code cfg.dialect l.tokens)).map ImportLine.name := by
    intro l hl
    have hsnd := congrArg (Option.map Prod.snd) (importIn?_code (hmarks l hl))
    rw [Option.map_map, Option.map_map] at hsnd
    exact hsnd.symm
  refine ⟨⟨?_, ?_, ?_⟩, by rw [hcontext, hcontext']⟩
  · rw [htokens, htokens', uncommented_imports, uncommented_imports, uncommented,
      Line.flatMap_ofTokens (fun _ _ h => (mem_of_mem_code h).1) rfl]
    refine congrArg _ (List.flatMap_congr fun l hl => ?_)
    rw [code_remainder_code (hmarks l hl)]
  · rw [himports, himports', imports, imports, Output.concat_imports, Output.concat_imports, List.flatMap_map,
      List.flatMap_map, uncommented, Line.flatMap_ofTokens (fun _ _ h => (mem_of_mem_code h).1) rfl]
    exact List.flatMap_congr fun l hl => (importLine_congr cfg (hname l hl)).1
  · rw [hreports, hreports', imports, imports, Output.concat_diagnostics, Output.concat_diagnostics,
      List.flatMap_map, List.flatMap_map, List.map_flatMap, List.map_flatMap, uncommented,
      Line.flatMap_ofTokens (fun _ _ h => (mem_of_mem_code h).1) rfl]
    exact List.flatMap_congr fun l hl => (importLine_congr cfg (hname l hl)).2

/-- Comments are inert: for streams that are the same without comments and up to the numbers of their tokens, the
preprocessor yields the same tokens up to numbers, the same imports and the same reports, unless a comment marker
is a part of an import. -/
theorem run_agrees_of_uncommented (cfg : Config) (file : Text) {ts us : List Token}
    (h : (uncommented cfg.dialect ts).map Token.anonymous = (uncommented cfg.dialect us).map Token.anonymous)
    (hts : ∀ l ∈ Line.ofTokens ts, marksImport cfg.dialect l.tokens = false)
    (hus : ∀ l ∈ Line.ofTokens us, marksImport cfg.dialect l.tokens = false) :
    (run cfg file ts).output.Agrees (run cfg file us).output := by
  have hstart : (start file (uncommented cfg.dialect ts)).Agrees (start file (uncommented cfg.dialect us)) :=
    ⟨.ofTokens h, rfl⟩
  have hstripped := ((agrees_uncommented cfg file hts).trans (hstart.foldl _)).trans
    (agrees_uncommented cfg file hus).symm
  have hpasses : Pass.all = [.imports, .comments] ++ [.equates, .macros, .reduce] := rfl
  have hall : (Pass.all.foldl (step cfg) (start file ts)).Agrees (Pass.all.foldl (step cfg) (start file us)) := by
    rw [hpasses, List.foldl_append, List.foldl_append]
    exact hstripped.foldl _
  exact ⟨hall.output.tokens, hall.output.imports, hall.output.reports⟩

/-- A marker that is neither `#` nor spells `import` is never a part of an import. -/
theorem marksImport_eq_false {d : Dialect} (hhash : d.comment ≠ ("#" : Text))
    (himport : d.comment.equalFold "import" = false) (line : List Token) : marksImport d line = false := by
  have hmarks : ∀ {t : Token}, d.marks t → t.kind = .symbol ∧ t.text = d.comment := by
    intro t ht
    simpa [Dialect.marks, Token.isSymbol] using (Bool.and_eq_true_iff.1 ht).2
  have hfirst : ∀ {t : Token}, t.text = ("#" : Text) → d.marks t = false :=
    fun ht => Bool.eq_false_iff.2 fun hmarked => hhash ((hmarks hmarked).2.symm.trans ht)
  have hsecond : ∀ {t : Token}, t.is "import" → d.marks t = false := by
    refine fun ht => Bool.eq_false_iff.2 fun hmarked => ?_
    rw [Token.is, (hmarks hmarked).2, himport] at ht
    cases ht
  have hthird : ∀ {t : Token}, t.kind = .string → d.marks t = false := by
    refine fun ht => Bool.eq_false_iff.2 fun hmarked => ?_
    rw [(hmarks hmarked).1] at ht
    cases ht
  induction line with
  | nil => rfl
  | cons t rest ih =>
    rw [marksImport]
    split_ifs with hstart
    · cases rest with
      | nil => cases hstart
      | cons u rest =>
        obtain ⟨ht, hu⟩ : t.text = ("#" : Text) ∧ u.is "import" := by simpa [startsImport] using hstart
        rw [hfirst ht, List.head?_cons, Option.any_some, hsecond hu, Bool.or_false, Bool.false_or,
          matchStart_importFull]
        cases htake : Pattern.take? true importFull.components (t :: u :: rest) with
        | none => rfl
        | some r =>
          obtain ⟨n, matched⟩ := r
          rcases Pattern.forall₂_accepts_of_take? htake with _ | ⟨ha, _ | ⟨hb, _ | ⟨hc, _ | _⟩⟩⟩
          have hname := hthird (by simpa [Component.accepts] using hc)
          simp [hfirst (beq_iff_eq.1 ha), hsecond hb, hname]
    · rw [ih, Bool.and_false]

/-- Definitions and invocations with comments that hold directives. -/
def directiveComments : Text :=
  ".macro two ; .endm\n nop ; #import \"x\"\n.endm ;(1+1)\n two ; two\n"

/-- The same with other comments of the same lengths. -/
def wordComments : Text :=
  ".macro two ; a b c\n nop ;two;two;two;\n.endm ;.endm\n two ;;;;;\n"

theorem run_agrees_of_uncommented_directive :
    (uncommented .standard (Token.tokenize .standard "a.s" directiveComments).tokens).map Token.anonymous =
        (uncommented .standard (Token.tokenize .standard "a.s" wordComments).tokens).map Token.anonymous ∧
      (run { dialect := .standard } "a.s" (Token.tokenize .standard "a.s" directiveComments).tokens).output.Agrees
        (run { dialect := .standard } "a.s" (Token.tokenize .standard "a.s" wordComments).tokens).output := by
  have heq : (uncommented .standard (Token.tokenize .standard "a.s" directiveComments).tokens).map Token.anonymous =
      (uncommented .standard (Token.tokenize .standard "a.s" wordComments).tokens).map Token.anonymous := by
    decide +kernel
  have hmarks := marksImport_eq_false (show Dialect.standard.comment ≠ ("#" : Text) by decide)
    (show Dialect.standard.comment.equalFold "import" = false by decide +kernel)
  exact ⟨heq, run_agrees_of_uncommented { dialect := .standard } "a.s" heq (fun _ _ => hmarks _) fun _ _ => hmarks _⟩

/-- A dialect whose comments start with `#`. -/
def hashDialect : Dialect := { Dialect.standard with comment := "#" }

/-- Behind a marker that starts it, an import still takes place, and other words do not matter. -/
theorem import_behind_marker :
    (uncommented hashDialect (Token.tokenize hashDialect "t.s" "#import \"lib.s\"\n").tokens).map Token.anonymous =
        (uncommented hashDialect (Token.tokenize hashDialect "t.s" "#export \"lib.s\"\n").tokens).map
          Token.anonymous ∧
      (run { dialect := hashDialect } "t.s"
        (Token.tokenize hashDialect "t.s" "#import \"lib.s\"\n").tokens).output.diagnostics.map Diagnostic.report =
          [(.error, .importMissing)] ∧
      (run { dialect := hashDialect } "t.s"
        (Token.tokenize hashDialect "t.s" "#export \"lib.s\"\n").tokens).output.diagnostics = [] := by
  decide +kernel

end Preprocess

end EightBit
