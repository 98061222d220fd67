import Mathlib
import EightBit.Proofs.Preprocess
import EightBit.Proofs.Scan

/-!
# Sources that the preprocessor leaves alone

The preprocessor changes nothing in a source in which no token imports, starts a comment, defines, is
defined or is reduced.

* `Preprocess.Passive`: a token that no pass acts on by itself.
* `Preprocess.run_of_passive`: what the preprocessor yields for such tokens.
-/

namespace EightBit

theorem Line.mem_of_mem_ofTokens {tokens : List Token} {l : Line} (hl : l ∈ Line.ofTokens tokens)
    {t : Token} (ht : t ∈ l.tokens) : t ∈ tokens := by
  rw [← Line.flatMap_all_ofTokens tokens]
  exact List.mem_flatMap.2 ⟨l, hl, List.mem_append_left _ ht⟩

namespace Preprocess

/-- The directives that the preprocessor acts on. -/
def directives : List Text := [".equ", ".macro", ".endm"]

/-- A token that no pass of the preprocessor acts on by itself. It may still belong to an operation that is
reduced. -/
structure Passive (cfg : Config) (t : Token) : Prop where
  /-- It does not name an import. -/
  is_import : t.is "import" = false
  /-- It starts no comment. -/
  isSymbol_comment : t.isSymbol cfg.dialect.comment = false
  /-- It is no directive. -/
  is_directive : ∀ w ∈ directives, t.is w = false
  /-- It is not defined beforehand. -/
  lookup_defines : t.kind = .word → cfg.defines.lookup t.text = none

namespace Output

theorem ofTokens_append (ts us : List Token) :
    ({ tokens := ts } : Output) ++ ({ tokens := us } : Output) = { tokens := ts ++ us } := rfl

/-- Lines that a pass yields unchanged, put together. -/
theorem concat_of_all {f : Line → Output} {lines : List Line} (h : ∀ l ∈ lines, f l = { tokens := l.all }) :
    concat (lines.map f) = { tokens := lines.flatMap Line.all } := by
  induction lines with
  | nil => rfl
  | cons l lines ih =>
    rw [List.map_cons, concat_cons, h l List.mem_cons_self,
      ih fun k hk => h k (List.mem_cons_of_mem l hk), ofTokens_append]
    rfl

end Output

section Passes

variable {cfg : Config} {tokens : List Token}

theorem matchAnywhere_importStart (h : ∀ t ∈ tokens, t.is "import" = false) :
    importStart.matchAnywhere tokens = none := by
  induction tokens with
  | nil => rfl
  | cons t rest ih =>
    have hstart : importStart.matchStart (t :: rest) = none := by
      cases rest with
      | nil => simp [Pattern.matchStart, importStart, Pattern.tight, Pattern.take?, Pattern.ignored]
      | cons u rest =>
        -- The name of the directive is the second token, after its mark.
        have hu : Component.accepts (.folded "import") u = false := h u (by simp)
        simp [Pattern.matchStart, importStart, Pattern.tight, Pattern.take?, Pattern.ignored, hu]
    rw [Pattern.matchAnywhere, hstart, ite_self, ih fun u hu => h u (List.mem_cons_of_mem t hu)]
    rfl

theorem imports_of_passive (h : ∀ t ∈ tokens, Passive cfg t) : imports cfg tokens = { tokens } := by
  rw [imports, Output.concat_of_all, Line.flatMap_all_ofTokens]
  intro l hl
  have hnone : importIn? cfg.dialect l.tokens = none := by
    rw [importIn?, matchAnywhere_importStart fun t ht => (h t (Line.mem_of_mem_ofTokens hl ht)).is_import]
    rfl
  rw [importLine, hnone]

theorem comments_of_passive (h : ∀ t ∈ tokens, Passive cfg t) : comments cfg tokens = { tokens } := by
  unfold comments
  split
  next => rfl
  next =>
    rw [Output.concat_of_all, Line.flatMap_all_ofTokens]
    intro l hl
    have hkept : (l.tokens.takeWhile fun t => !t.isSymbol cfg.dialect.comment) = l.tokens :=
      List.takeWhile_eq_self_iff.2 fun t ht => by
        rw [(h t (Line.mem_of_mem_ofTokens hl ht)).isSymbol_comment]
        rfl
    simp [commentLine, hkept, Line.all]

/-- No line starts with a directive if none of its tokens is one. -/
theorem startsWith_eq_false {w : Text} (hw : w ∈ directives) {l : Line} (h : ∀ t ∈ l.tokens, Passive cfg t) :
    startsWith l.tokens w = false := by
  rw [startsWith, Option.any_eq_false]
  intro t ht
  have hmem : t ∈ l.tokens := (List.dropWhile_sublist _).mem (List.mem_of_mem_head? ht)
  simp [(h t hmem).is_directive w hw]

theorem collectEquates_of_passive {lines : List Line} (h : ∀ l ∈ lines, ∀ t ∈ l.tokens, Passive cfg t)
    (found : List (Text × Text)) :
    collectEquates found lines = ({ tokens := lines.flatMap Line.all }, found) := by
  induction lines with
  | nil => rfl
  | cons l lines ih =>
    rw [collectEquates, startsWith_eq_false (by decide) (h l List.mem_cons_self),
      ih fun k hk => h k (List.mem_cons_of_mem l hk)]
    rfl

theorem substituteEquates_of_passive (h : ∀ t ∈ tokens, Passive cfg t) (ctx : Context)
    (before : Option Token) :
    substituteEquates cfg.dialect cfg.defines ctx before tokens = ({ tokens }, ctx) := by
  induction tokens generalizing before with
  | nil => rfl
  | cons t rest ih =>
    -- No token is replaced, so that the context in which replacements are numbered stays.
    have hnone : (if t.kind = .word ∧ before.any (·.isSymbol "\\") = false then
        cfg.defines.lookup t.text else none) = none := by
      split_ifs with hword
      · exact (h t List.mem_cons_self).lookup_defines hword.1
      · rfl
    simp only [substituteEquates]
    rw [hnone, ih fun u hu => h u (List.mem_cons_of_mem t hu)]
    rfl

theorem equates_of_passive (h : ∀ t ∈ tokens, Passive cfg t) (ctx : Context) :
    equates cfg ctx tokens = ({ tokens }, ctx) := by
  rw [equates, collectEquates_of_passive fun l hl t ht => h t (Line.mem_of_mem_ofTokens hl ht),
    Line.flatMap_all_ofTokens]
  simp only [List.nil_append, substituteEquates_of_passive h]
  rfl

/-- Nothing is invoked where no macro is defined. -/
theorem invocation?_nil (line : List Token) : invocation? [] line = none := by
  unfold invocation?
  simp only [List.find?_nil, Option.map_none, ite_self]
  split
  next =>
    split_ifs
    · split <;> rfl
    · rfl
  next => split <;> rfl

theorem expandLines_of_passive {lines : List Line} (h : ∀ l ∈ lines, ∀ t ∈ l.tokens, Passive cfg t)
    (ctx : Context) :
    expandLines cfg.dialect [] ctx none lines = ({ tokens := lines.flatMap Line.all }, ctx) := by
  induction lines with
  | nil => rfl
  | cons l lines ih =>
    have hl := h l List.mem_cons_self
    have hline : expandLine cfg.dialect [] macroDepthLimit ctx l.tokens = ({ tokens := l.tokens }, ctx) := by
      unfold expandLine
      rw [invocation?_nil]
    have hrest := ih fun k hk => h k (List.mem_cons_of_mem l hk)
    rw [expandLines, startsWith_eq_false (by decide) hl, startsWith_eq_false (by decide) hl, hline]
    simp [hrest, Output.ofTokens_append, Line.all]

end Passes

/-- The preprocessor changes nothing in a stream of tokens that no pass acts on and in which no operation is
reduced. -/
theorem run_of_passive {cfg : Config} {tokens : List Token} (file : Text) (h : ∀ t ∈ tokens, Passive cfg t)
    (hreduce : Token.reduce cfg.dialect tokens = tokens) :
    run cfg file tokens =
      { file, output := { tokens, events := [.finished file tokens.length 0 0] } } := by
  have hmacros : expandMacros cfg {} tokens = ({ tokens }, {}) := by
    rw [expandMacros, expandLines_of_passive fun l hl t ht => h t (Line.mem_of_mem_ofTokens hl ht),
      Line.flatMap_all_ofTokens]
  -- The last pass reduces operations once more, since a replacement may complete one.
  simp only [run, Pass.all, List.foldl_cons, List.foldl_nil, step, start, Pass.run, imports_of_passive h,
    comments_of_passive h, equates_of_passive h, hmacros, hreduce, Output.ofTokens_append, List.nil_append]
  rfl

end Preprocess

end EightBit
