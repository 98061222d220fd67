import Mathlib
import EightBit.Proofs.SourceTree

/-!
# What a file imports

The imports of a file are looked up by the names that its token stream holds, and by no others. Each of
them is grafted if it has no errors and was assembled; else an error stays in the tree of the importing
file.

* `Tree.IsImportable`: what an imported tree has to be.
* `Preprocess.exists_of_mem_imports`: the imports of a file, by name.
* `Preprocess.run_congr`: only the names in the file are looked up.
* `Assembler.isImportable_of_errors`: a file without errors finds all its imports.
-/

namespace EightBit

/-- The tree may be imported: it has no errors, and it was assembled without any. -/
structure Tree.IsImportable (t : Tree) : Prop where
  /-- The tree has no errors. -/
  errors : t.errors = []
  /-- The tree was assembled. -/
  assembled : t.assembled = true

namespace Preprocess

theorem findImport_eq_ok_iff {cfg : Config} {name : Text} {t : Tree} :
    findImport cfg name = .ok t ↔ cfg.files name = some t ∧ t.IsImportable := by
  unfold findImport
  cases hfile : cfg.files name with
  | none => simp
  | some tree =>
    simp only [Option.some.injEq]
    split_ifs with herrors hassembled
    · simp only [false_iff, not_and]
      rintro rfl h
      simp [h.errors] at herrors
    · simp only [false_iff, not_and]
      rintro rfl h
      simp [h.assembled] at hassembled
    · simp only [Except.ok.injEq, iff_self_and]
      rintro rfl
      exact ⟨by simpa using herrors, by simpa using hassembled⟩

section Pass

variable {cfg : Config} {tokens : List Token}

theorem mem_importNames {d : Dialect} {name : Text} :
    name ∈ importNames d tokens ↔
      ∃ l ∈ Line.ofTokens tokens, ∃ i, importIn? d l.tokens = some i ∧ i.name = name ∧ name ≠ [] := by
  simp only [importNames, List.mem_filter, List.mem_filterMap, Option.map_eq_some_iff,
    Bool.not_eq_true', List.isEmpty_eq_false_iff]
  grind

/-- Every imported tree was found under a name in the token stream. -/
theorem exists_of_mem_imports {t : Tree} (ht : t ∈ (imports cfg tokens).imports) :
    ∃ name ∈ importNames cfg.dialect tokens, cfg.files name = some t ∧ t.IsImportable := by
  rw [imports, Output.concat_imports] at ht
  obtain ⟨o, ho, hto⟩ := List.mem_flatMap.1 ht
  obtain ⟨l, hl, rfl⟩ := List.mem_map.1 ho
  obtain ⟨i, hi, hname, hfound⟩ := exists_of_mem_imports_importLine hto
  exact ⟨i.name, mem_importNames.2 ⟨l, hl, i, hi, rfl, hname⟩, findImport_eq_ok_iff.1 hfound⟩

theorem mem_diagnostics_concat {os : List Output} {o : Output} (ho : o ∈ os) :
    o.diagnostics ⊆ (Output.concat os).diagnostics := by
  induction os with
  | nil => cases ho
  | cons o' os ih =>
    rcases List.mem_cons.1 ho with rfl | ho
    · exact List.subset_append_left _ _
    · exact List.Subset.trans (ih ho) (List.subset_append_right _ _)

/-- A name under which no tree may be imported is reported. -/
theorem exists_error_of_mem_importNames (cfg : Config) {name : Text}
    (hname : name ∈ importNames cfg.dialect tokens) :
    (∃ t, cfg.files name = some t ∧ t.IsImportable) ∨
      ∃ d ∈ (imports cfg tokens).diagnostics, d.isError := by
  obtain ⟨l, hl, i, hi, rfl, hne⟩ := mem_importNames.1 hname
  cases hfound : findImport cfg i.name with
  | ok t => exact .inl ⟨t, findImport_eq_ok_iff.1 hfound⟩
  | error cause =>
    refine .inr ⟨.error cause i.tokens, mem_diagnostics_concat (List.mem_map_of_mem hl) ?_, rfl⟩
    simp [importLine, hi, importOutput, hfound, hne]

/-- The pass depends on what is found under the names that it looks up only. -/
theorem imports_congr {files files' : Text → Option Tree}
    (h : ∀ name ∈ importNames cfg.dialect tokens, files name = files' name) :
    imports { cfg with files } tokens = imports { cfg with files := files' } tokens := by
  unfold imports
  congr 1
  refine List.map_congr_left fun l hl => ?_
  unfold importLine
  cases hi : importIn? cfg.dialect l.tokens with
  | none => rfl
  | some i =>
    have hout : importOutput { cfg with files } i = importOutput { cfg with files := files' } i := by
      by_cases hname : i.name = []
      · simp [importOutput, hname]
      · simp [importOutput, findImport, h i.name (mem_importNames.2 ⟨l, hl, i, hi, rfl, hname⟩)]
    simp only [hout]

end Pass

section Run

variable (cfg : Config) (file : Text) (tokens : List Token)

/-- What the first pass reports stays reported. -/
theorem diagnostics_imports_subset :
    (imports cfg tokens).diagnostics ⊆ (run cfg file tokens).output.diagnostics := by
  intro d hd
  simp [run, Pass.all, step, Pass.run, start, hd]

variable {tokens}

/-- Files that agree on the names in a token stream yield the same output for it. -/
theorem run_congr {files files' : Text → Option Tree}
    (h : ∀ name ∈ importNames cfg.dialect tokens, files name = files' name) :
    run { cfg with files } file tokens = run { cfg with files := files' } file tokens := by
  have hfirst : step { cfg with files } (start file tokens) .imports =
      step { cfg with files := files' } (start file tokens) .imports := by
    simp only [step, Pass.run, start, imports_congr h]
  -- The other passes do not look at the files.
  have hcomments (r : Preprocessed) :
      step { cfg with files } r .comments = step { cfg with files := files' } r .comments := rfl
  have hequates (r : Preprocessed) :
      step { cfg with files } r .equates = step { cfg with files := files' } r .equates := rfl
  have hmacros (r : Preprocessed) :
      step { cfg with files } r .macros = step { cfg with files := files' } r .macros := rfl
  have hreduce (r : Preprocessed) :
      step { cfg with files } r .reduce = step { cfg with files := files' } r .reduce := rfl
  have hpasses : Pass.all.foldl (step { cfg with files }) (start file tokens) =
      Pass.all.foldl (step { cfg with files := files' }) (start file tokens) := by
    simp only [Pass.all, List.foldl_cons, List.foldl_nil, hfirst, hcomments, hequates, hmacros, hreduce]
  simp only [run, hpasses]

end Run

end Preprocess

namespace Tree

theorem diagnostics_foldl_graft (imports : List Tree) (t : Tree) :
    (imports.foldl graft t).diagnostics = t.diagnostics := by
  induction imports generalizing t with
  | nil => rfl
  | cons other rest ih => exact ih (t.graft other)

/-- What the preprocessor reports stays in the tree. -/
theorem diagnostics_subset_link (arch : Architecture) (r : Preprocessed) :
    r.output.diagnostics ⊆ ((ofPreprocessed arch r).link arch).diagnostics := by
  intro d hd
  rw [diagnostics_link, ofPreprocessed_eq, diagnostics_foldl_graft]
  simp [own, hd]

end Tree

namespace Assembler

variable {a : Assembler} {name text : Text}

/-- The names that a source text imports. -/
def importNames (a : Assembler) (name text : Text) : List Text :=
  Preprocess.importNames a.arch.dialect (Token.tokenize a.arch.dialect name text).tokens

theorem imports_of_source (a : Assembler) (name text : Text) :
    (a.preprocessed name text).output.imports =
      (Preprocess.imports { dialect := a.arch.dialect, files := a.files, defines := a.defines }
        (Token.tokenize a.arch.dialect name text).tokens).imports := by
  rw [← Preprocess.imports_run _ name, preprocessed]

/-- Every imported tree was found under a name in the source text, and may be imported. -/
theorem exists_of_mem_imports {t : Tree} (ht : t ∈ (a.preprocessed name text).output.imports) :
    ∃ file ∈ a.importNames name text, a.files file = some t ∧ t.IsImportable := by
  rw [imports_of_source] at ht
  obtain ⟨file, hfile, hfound⟩ := Preprocess.exists_of_mem_imports ht
  exact ⟨file, hfile, hfound⟩

theorem diagnostics_of_source (a : Assembler) (name text : Text) :
    (a.preprocessed name text).output.diagnostics =
      ((Token.tokenize a.arch.dialect name text).error.map lexDiagnostic).toList ++
        (Preprocess.run { dialect := a.arch.dialect, files := a.files, defines := a.defines } name
          (Token.tokenize a.arch.dialect name text).tokens).output.diagnostics := by
  rw [preprocessed]

/-- A file without errors finds all its imports. -/
theorem isImportable_of_errors (herrors : (a.parse name text).tree.errors = []) :
    ∀ file ∈ a.importNames name text, ∃ t, a.files file = some t ∧ t.IsImportable := by
  intro file hfile
  by_contra hmissing
  obtain ⟨d, hd, herror⟩ := (Preprocess.exists_error_of_mem_importNames
    { dialect := a.arch.dialect, files := a.files, defines := a.defines } hfile).resolve_left hmissing
  -- What the first pass reports is found in the tree.
  have hmem : d ∈ (a.preprocessed name text).output.diagnostics := by
    rw [diagnostics_of_source]
    exact List.mem_append_right _ (Preprocess.diagnostics_imports_subset _ name _ hd)
  have htree : d ∈ (a.parse name text).tree.errors := by
    rw [tree_parse]
    exact List.mem_filter.2 ⟨Tree.diagnostics_subset_link a.arch _ hmem, herror⟩
  rw [herrors] at htree
  exact List.not_mem_nil htree

/-- A tree depends on what is found under the names that its text imports only. -/
theorem parse_congr {files files' : Text → Option Tree}
    (h : ∀ file ∈ a.importNames name text, files file = files' file) :
    { a with files }.parse name text = { a with files := files' }.parse name text := by
  have hrun := Preprocess.run_congr { dialect := a.arch.dialect, defines := a.defines } name h
  have hdefines (f : Text → Option Tree) : { a with files := f }.defines = a.defines := rfl
  simp only [parse, hdefines, hrun]

end Assembler

end EightBit
