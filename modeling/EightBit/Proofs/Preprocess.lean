import Mathlib
import EightBit.Preprocess.Run

/-!
# What the preprocessor yields

Outputs of passes are put together part by part. Only the first pass imports files, and it takes them
from the files that the configuration offers. What the passes report is about directives and macros, and
never about statements or labels.

* `Preprocess.Output.concat_imports` and its companions: the parts of outputs put together.
* `Preprocess.Output.IsPlain`: what every pass but the first yields.
* `Preprocess.imports_run`, `Preprocess.mem_imports_run`: where imported trees come from.
* `Preprocess.isOfPreprocessing_of_mem_run`: what is reported.
-/

namespace EightBit

/-- Whether a pass of the preprocessor reports it. -/
def Cause.isOfPreprocessing : Cause → Bool
  | importSyntax | importMissing | importUnbuilt | importBroken | equateSyntax | equateDuplicate | macroSyntax
  | macroNesting | macroDuplicate | macroLonely | macroLonelyEnd | macroArity | macroTrailingComma | macroDepth
  | macroParameter | substitutionInvalid => true
  | _ => false

namespace Preprocess

namespace Output

@[simp] theorem append_tokens (a b : Output) : (a ++ b).tokens = a.tokens ++ b.tokens := rfl

@[simp] theorem append_consumed (a b : Output) : (a ++ b).consumed = a.consumed ++ b.consumed := rfl

@[simp] theorem append_diagnostics (a b : Output) :
    (a ++ b).diagnostics = a.diagnostics ++ b.diagnostics := rfl

@[simp] theorem append_imports (a b : Output) : (a ++ b).imports = a.imports ++ b.imports := rfl

@[simp] theorem append_events (a b : Output) : (a ++ b).events = a.events ++ b.events := rfl

@[simp] theorem concat_nil : concat [] = {} := rfl

@[simp] theorem concat_cons (o : Output) (os : List Output) : concat (o :: os) = o ++ concat os := rfl

theorem concat_tokens (os : List Output) : (concat os).tokens = os.flatMap Output.tokens := by
  induction os with
  | nil => rfl
  | cons o os ih => simp [ih]

theorem concat_diagnostics (os : List Output) : (concat os).diagnostics = os.flatMap Output.diagnostics := by
  induction os with
  | nil => rfl
  | cons o os ih => simp [ih]

/-- The imports of outputs put together. -/
theorem concat_imports (os : List Output) : (concat os).imports = os.flatMap Output.imports := by
  induction os with
  | nil => rfl
  | cons o os ih => simp [ih]

end Output

/-! ## Imports come from the files on offer -/

/-- A tree that a line imports was found under the name in the line. -/
theorem exists_of_mem_imports_importLine {cfg : Config} {l : Line} {t : Tree}
    (ht : t ∈ (importLine cfg l).imports) :
    ∃ i, importIn? cfg.dialect l.tokens = some i ∧ i.name ≠ [] ∧ findImport cfg i.name = .ok t := by
  unfold importLine at ht
  split at ht
  next => simp at ht
  next i hi =>
    simp only [Output.append_imports, List.append_nil] at ht
    unfold importOutput at ht
    split_ifs at ht with hname
    · simp [Output.error] at ht
    · cases hfound : findImport cfg i.name with
      | error cause => simp [hfound] at ht
      | ok tree =>
        obtain rfl : t = tree := by simpa [hfound] using ht
        exact ⟨i, hi, by simpa using hname, hfound⟩

theorem files_of_findImport {cfg : Config} {name : Text} {t : Tree} (h : findImport cfg name = .ok t) :
    cfg.files name = some t := by
  unfold findImport at h
  split at h
  next => cases h
  next found hfiles =>
    split_ifs at h
    cases h
    exact hfiles

/-- The first pass yields only trees that the configuration offers. -/
theorem mem_imports_imports {cfg : Config} {tokens : List Token} {t : Tree}
    (ht : t ∈ (imports cfg tokens).imports) : ∃ name, cfg.files name = some t := by
  rw [imports, Output.concat_imports] at ht
  obtain ⟨o, ho, hto⟩ := List.mem_flatMap.1 ht
  obtain ⟨l, _, rfl⟩ := List.mem_map.1 ho
  obtain ⟨i, -, -, hfound⟩ := exists_of_mem_imports_importLine hto
  exact ⟨i.name, files_of_findImport hfound⟩

/-! ## The other passes import nothing -/

namespace Output

/-- An output that imports nothing and reports nothing but what passes do. -/
structure IsPlain (o : Output) : Prop where
  imports : o.imports = []
  causes : ∀ d ∈ o.diagnostics, d.cause.isOfPreprocessing

namespace IsPlain

variable {a b : Output}

theorem silent (himports : a.imports = []) (hdiagnostics : a.diagnostics = []) : a.IsPlain :=
  ⟨himports, by simp [hdiagnostics]⟩

theorem reporting {d : Diagnostic} (himports : a.imports = []) (hdiagnostics : a.diagnostics = [d])
    (hcause : d.cause.isOfPreprocessing) : a.IsPlain :=
  ⟨himports, by simpa [hdiagnostics] using hcause⟩

theorem append (ha : a.IsPlain) (hb : b.IsPlain) : (a ++ b).IsPlain where
  imports := by simp [ha.imports, hb.imports]
  causes := List.forall_mem_append.2 ⟨ha.causes, hb.causes⟩

end IsPlain

end Output

theorem isPlain_comments (cfg : Config) (tokens : List Token) : (comments cfg tokens).IsPlain := by
  unfold comments
  split_ifs
  · exact .silent rfl rfl
  · exact .silent (by simp [Output.concat_imports, commentLine]) (by simp [Output.concat_diagnostics, commentLine])

theorem isPlain_collectEquates (found : List (Text × Text)) (lines : List Line) :
    (collectEquates found lines).1.IsPlain := by
  induction lines generalizing found with
  | nil => exact .silent rfl rfl
  | cons l rest ih =>
    unfold collectEquates
    split
    next => exact .append (.silent rfl rfl) (ih found)
    next =>
      split
      next => exact .append (.append (.silent rfl rfl) (.reporting rfl rfl rfl)) (ih found)
      next =>
        split
        next => exact .append (.append (.silent rfl rfl) (.reporting rfl rfl rfl)) (ih found)
        next => exact .append (.silent rfl rfl) (ih _)

theorem isPlain_substituteEquates (d : Dialect) (values : List (Text × Text)) (ctx : Context)
    (before : Option Token) (tokens : List Token) :
    (substituteEquates d values ctx before tokens).1.IsPlain := by
  induction tokens generalizing ctx before with
  | nil => exact .silent rfl rfl
  | cons t rest ih =>
    unfold substituteEquates
    simp only
    split
    next => exact .append (.silent rfl rfl) (ih _ _)
    next =>
      split
      next => exact .append (.silent rfl rfl) (ih _ _)
      next => exact .append (.reporting rfl rfl rfl) (ih _ _)

theorem isPlain_equates (cfg : Config) (ctx : Context) (tokens : List Token) :
    (equates cfg ctx tokens).1.IsPlain := by
  have hkept := isPlain_collectEquates [] (Line.ofTokens tokens)
  exact .append ⟨hkept.imports, hkept.causes⟩ (isPlain_substituteEquates ..)

theorem isPlain_expandLine (d : Dialect) (macros : List Macro) (depth : Nat) (ctx : Context)
    (line : List Token) : (expandLine d macros depth ctx line).1.IsPlain := by
  induction depth generalizing ctx line with
  | zero =>
    unfold expandLine
    split
    next => exact .silent rfl rfl
    next => exact .reporting rfl rfl rfl
  | succ depth ih =>
    unfold expandLine
    split
    next => exact .silent rfl rfl
    next =>
      simp only
      split
      next => exact .reporting rfl rfl rfl
      next =>
        split
        next => exact .reporting rfl rfl rfl
        next =>
          split
          next => exact .reporting rfl rfl rfl
          next =>
            refine List.foldlRecOn (motive := fun acc : Output × Context => acc.1.IsPlain) _ _ (.silent rfl rfl) ?_
            exact fun acc hacc l _ => .append (.append hacc (ih acc.2 l.tokens)) (.silent rfl rfl)

theorem isPlain_openMacro (l : Line) : (openMacro l).2.IsPlain := by
  unfold openMacro
  split
  next => exact .silent rfl rfl
  next =>
    refine .append (.silent rfl rfl) ?_
    generalize hasTrailingComma _ = trailing
    cases trailing with
    | false => exact .silent rfl rfl
    | true => exact .reporting rfl rfl rfl

theorem isPlain_close (o : OpenMacro) (macros : List Macro) (l : Line) : (o.close macros l).2.IsPlain := by
  unfold OpenMacro.close
  split
  next => exact .reporting rfl rfl rfl
  next =>
    split_ifs
    · exact .silent rfl rfl
    · exact .append (.silent rfl rfl) (.reporting rfl rfl rfl)
    · exact .silent rfl rfl

theorem isPlain_expandLines (d : Dialect) (macros : List Macro) (ctx : Context)
    (opened : Option OpenMacro) (lines : List Line) :
    (expandLines d macros ctx opened lines).1.IsPlain := by
  induction lines generalizing macros ctx opened with
  | nil =>
    cases opened with
    | none => exact .silent rfl rfl
    | some o => exact .reporting rfl rfl rfl
  | cons l rest ih =>
    cases opened with
    | some o =>
      unfold expandLines
      split
      next => exact .append (isPlain_close o macros l) (ih _ _ _)
      next =>
        refine .append ?_ (ih _ _ _)
        split_ifs
        · exact .reporting rfl rfl rfl
        · exact .silent rfl rfl
    | none =>
      unfold expandLines
      split
      next => exact .append (isPlain_openMacro l) (ih _ _ _)
      next =>
        split
        next => exact .append (.append (.reporting rfl rfl rfl) (.silent rfl rfl)) (ih _ _ _)
        next => exact .append (.append (isPlain_expandLine ..) (.silent rfl rfl)) (ih _ _ _)

theorem Pass.isPlain_run (cfg : Config) (ctx : Context) (tokens : List Token) {p : Pass} (hp : p ≠ .imports) :
    (p.run cfg ctx tokens).1.IsPlain := by
  cases p with
  | imports => exact absurd rfl hp
  | comments => exact isPlain_comments cfg tokens
  | equates => exact isPlain_equates cfg ctx tokens
  | macros => exact isPlain_expandLines ..
  | reduce => exact .silent rfl rfl

/-! ## What a file imports, and what is reported -/

/-- The imports of a file are those of the first pass. -/
theorem imports_run (cfg : Config) (file : Text) (tokens : List Token) :
    (run cfg file tokens).output.imports = (imports cfg tokens).imports := by
  have hother : ∀ (ps : List Pass), .imports ∉ ps → ∀ r : Preprocessed,
      (ps.foldl (step cfg) r).output.imports = r.output.imports := by
    intro ps
    induction ps with
    | nil => exact fun _ _ => rfl
    | cons p ps ih =>
      intro hps r
      obtain ⟨hp, hps⟩ := not_or.1 (mt List.mem_cons.2 hps)
      have hplain := Pass.isPlain_run cfg r.context r.output.tokens (Ne.symm hp)
      rw [List.foldl_cons, ih hps, step, Output.append_imports, hplain.imports, List.append_nil]
  exact hother [.comments, .equates, .macros, .reduce] (by decide) (step cfg (start file tokens) .imports)

/-- Every tree that a file imports is one of those that the configuration offers. -/
theorem mem_imports_run {cfg : Config} {file : Text} {tokens : List Token} {t : Tree}
    (ht : t ∈ (run cfg file tokens).output.imports) : ∃ name, cfg.files name = some t := by
  rw [imports_run] at ht
  exact mem_imports_imports ht

theorem isOfPreprocessing_of_findImport {cfg : Config} {name : Text} {cause : Cause}
    (h : findImport cfg name = .error cause) : cause.isOfPreprocessing := by
  unfold findImport at h
  split at h
  next =>
    cases h
    rfl
  next => split_ifs at h <;> cases h <;> rfl

theorem isOfPreprocessing_of_mem_importLine {cfg : Config} {l : Line} {d : Diagnostic}
    (hd : d ∈ (importLine cfg l).diagnostics) : d.cause.isOfPreprocessing := by
  unfold importLine at hd
  split at hd
  next => cases hd
  next i _ =>
    simp only [Output.append_diagnostics, List.append_nil] at hd
    unfold importOutput at hd
    split_ifs at hd
    · rw [List.mem_singleton.1 hd]
      rfl
    · cases hfound : findImport cfg i.name with
      | error cause =>
        rw [hfound] at hd
        rw [List.mem_singleton.1 hd]
        exact isOfPreprocessing_of_findImport hfound
      | ok tree =>
        rw [hfound] at hd
        cases hd

/-- The preprocessor reports what is wrong with directives and macros, and nothing else. -/
theorem isOfPreprocessing_of_mem_run {cfg : Config} {file : Text} {tokens : List Token} {d : Diagnostic}
    (hd : d ∈ (run cfg file tokens).output.diagnostics) : d.cause.isOfPreprocessing := by
  have hpasses : ∀ (p : Pass) (ctx : Context) (tokens : List Token),
      ∀ d ∈ (p.run cfg ctx tokens).1.diagnostics, d.cause.isOfPreprocessing := by
    intro p ctx tokens d hd
    by_cases hp : p = .imports
    · subst hp
      rw [Pass.run, imports, Output.concat_diagnostics] at hd
      obtain ⟨o, ho, hdo⟩ := List.mem_flatMap.1 hd
      obtain ⟨l, -, rfl⟩ := List.mem_map.1 ho
      exact isOfPreprocessing_of_mem_importLine hdo
    · exact (Pass.isPlain_run cfg ctx tokens hp).causes d hd
  have hall : ∀ d ∈ (Pass.all.foldl (step cfg) (start file tokens)).output.diagnostics,
      d.cause.isOfPreprocessing := by
    refine List.foldlRecOn
      (motive := fun r : Preprocessed => ∀ d ∈ r.output.diagnostics, d.cause.isOfPreprocessing) _ _ (by simp [start]) ?_
    exact fun r hr p _ => List.forall_mem_append.2 ⟨hr, hpasses p r.context r.output.tokens⟩
  exact hall d hd

end Preprocess

end EightBit
