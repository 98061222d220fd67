import Mathlib
import EightBit.Proofs.SourceTree
import EightBit.Proofs.TrailingBlank
import EightBit.Proofs.TreeRenumbering

/-!
# Line endings

A carriage return is a blank. So a text in which every line ends in a carriage return and a newline has the same
lines as the text with newlines only, up to blanks at their ends, and such blanks change neither the program nor what
is reported.

* `Parse.lines_alike`, `Tree.Agrees.ofPreprocessed`: lines that are alike are parsed alike.
* `Assembler.parse_alike`: texts that are alike have trees that agree.
* `Mos6502.assemble_withCarriageReturns`: carriage returns before newlines change nothing.
-/

namespace EightBit

/-! ## Parsing lines that are alike -/

namespace Parse

/-- The parser does not see blanks at the end of a line. -/
theorem line_append_gaps (arch : Architecture) (s : Parse) (ts : List Token) {xs : List Token}
    (hxs : ∀ x ∈ xs, x.IsGap) : s.line arch (ts ++ xs) = s.line arch ts := by
  rw [line, line, Token.trimRight_append_gaps hxs]

variable {arch : Architecture} (harch : arch.IsLexical)

include harch

theorem line_alike {s s' : Parse} (hs : s.anonymous = s'.anonymous) {ts us : List Token}
    (h : Token.RunsAlike ts us) : (s.line arch ts).anonymous = (s'.line arch us).anonymous := by
  obtain ⟨hsame, hxs, hys⟩ := h
  rw [line_append_gaps arch s _ hxs, line_append_gaps arch s' _ hys, ← line_anonymous harch, hs,
    (Token.forall₂_same_iff.1 hsame).1, line_anonymous harch]

/-- Lines that are alike are parsed alike, and abandoned at the same line. -/
theorem lines_alike {ls ms : List Line} (h : List.Forall₂ Line.Alike ls ms) {s s' : Parse}
    (hs : s.anonymous = s'.anonymous) : (lines arch s ls).anonymous = (lines arch s' ms).anonymous := by
  -- The parsers agree up to numbers after every line, in the number of their errors too.
  induction h generalizing s s' with
  | nil => exact hs
  | cons hline _ ih =>
    have hdone : s.isDone = s'.isDone := by rw [← isDone_anonymous, hs, isDone_anonymous]
    rw [lines, lines, hdone]
    split_ifs
    · exact hs
    · exact ih (line_alike harch hs hline.tokens)

end Parse

theorem Tree.Agrees.ofPreprocessed {arch : Architecture} (harch : arch.IsLexical) {r r' : Preprocessed}
    (h : r.output.Similar r'.output) :
    (Tree.ofPreprocessed arch r).Agrees (Tree.ofPreprocessed arch r') := by
  have hfound := Parse.lines_alike harch h.tokens.lines (rfl : ({} : Parse).anonymous = _)
  rw [Tree.ofPreprocessed, Tree.ofPreprocessed, h.imports]
  generalize Parse.lines arch {} (Line.ofTokens r.output.tokens) = found at hfound ⊢
  generalize Parse.lines arch {} (Line.ofTokens r'.output.tokens) = found' at hfound ⊢
  have hsections : Parse.sections (found.nodes.map Node.anonymous) = Parse.sections (found'.nodes.map Node.anonymous) :=
    congrArg Parse.sections (congrArg Parse.nodes hfound)
  rw [Parse.sections_anonymous, Parse.sections_anonymous] at hsections
  have herrors := Diagnostic.map_gist_eq (congrArg Parse.errors hfound)
  have hmisplaced := Diagnostic.map_gist_eq (congrArg Prod.snd hsections)
  refine Tree.Agrees.foldl_graft ?_ _
  refine ⟨congrArg Prod.fst hsections, congrArg Parse.labels hfound, ?_⟩
  simp only [List.map_append]
  exact congrArg₂ _ (congrArg₂ _ h.gists herrors) hmisplaced

/-! ## Texts that are alike -/

namespace Assembler

theorem similar_preprocessed (a : Assembler) (hd : Scan.IsUnbroken a.arch.dialect) (name : Text) {text text' : Text}
    (h : TextsAlike text text') : (a.preprocessed name text).output.Similar (a.preprocessed name text').output := by
  obtain ⟨htokens, herror⟩ := TokensAlike.tokenize hd h name
  have hrun : ∀ cfg : Preprocess.Config, Scan.IsUnbroken cfg.dialect →
      (Preprocess.run cfg name (Token.tokenize a.arch.dialect name text).tokens).output.Similar
        (Preprocess.run cfg name (Token.tokenize a.arch.dialect name text').tokens).output :=
    fun _ hcfg => Preprocess.similar_run hcfg name htokens
  specialize hrun { dialect := a.arch.dialect, files := a.files, defines := a.defines } hd
  rw [preprocessed, preprocessed]
  refine ⟨hrun.tokens, hrun.imports, ?_⟩
  simp only [List.map_append, herror, hrun.gists]

/-- Texts that are alike have trees that agree. -/
theorem parse_alike (a : Assembler) (hd : Scan.IsUnbroken a.arch.dialect) (harch : a.arch.IsLexical) (name : Text)
    {text text' : Text} (h : TextsAlike text text') : (a.parse name text).tree.Agrees (a.parse name text').tree := by
  rw [tree_parse, tree_parse]
  exact (Tree.Agrees.ofPreprocessed harch (a.similar_preprocessed hd name h)).link a.arch

/-- Trees that agree are assembled alike, if they have no errors. -/
theorem assemble_agrees (a : Assembler) {t u : Tree} (h : t.Agrees u) (ht : t.errors = []) (memory : Memory) :
    ∃ out out', a.assemble t memory = some out ∧ a.assemble u memory = some out' ∧
      out'.program = out.program ∧ out'.errors = out.errors := by
  have hempty : t.errors.isEmpty := List.isEmpty_iff.2 ht
  obtain ⟨hprogram, herrors⟩ := h.assemble a.arch a.origin a.wrapBranches memory
  refine ⟨_, _, if_pos hempty, if_pos ?_, hprogram.symm, herrors.symm⟩
  rw [← h.errors_isEmpty, hempty]

end Assembler

/-! ## Carriage returns -/

/-- A text with a carriage return before every newline. -/
def Text.withCarriageReturns (t : Text) : Text := t.flatMap fun b => if b = 0x0A then [0x0D, 0x0A] else [b]

theorem textsAlike_withCarriageReturns (t : Text) : TextsAlike t t.withCarriageReturns := by
  induction t with
  | nil => exact .nil
  | cons b t ih =>
    rw [Text.withCarriageReturns, List.flatMap_cons]
    split_ifs with hb
    · subst hb
      have hreturn : ∀ b ∈ ([0x0D] : Text), Scan.isBlank b := by simp [Scan.isBlank]
      exact .ended (List.forall_mem_nil _) hreturn rfl rfl ih
    · exact .prepend (.cons rfl .nil) ih

namespace Mos6502

theorem dialect_isUnbroken : Scan.IsUnbroken dialect where
  marks := by
    intro p hp c hc b hb
    have hmarks : ∀ p ∈ dialect.binPrefixes ++ dialect.hexPrefixes, ∀ c ∈ p.codePoints,
        ∀ b ∈ ([0x20, 0x09, 0x0D, 0x0C, 0x0B, 0x0A] : List UInt8), CodePoint.fold b.toNat ≠ CodePoint.fold c := by
      decide +kernel
    exact hmarks p hp c hc b (Scan.endsLine_cases hb)
  symbols := by decide +kernel

theorem architecture_isLexical : architecture.IsLexical := by
  have hmodes : ∀ m ∈ Addressing.modes, ∀ p ∈ m.patterns, p.isLexical := by decide +kernel
  exact hmodes

/-- Line endings do not matter: with a carriage return before every newline, the same is reported at the same places,
and a text without errors is assembled into the same program. -/
theorem assemble_withCarriageReturns (a : Assembler) (ha : a.arch = architecture) (name text : Text) :
    (a.parse name text.withCarriageReturns).tree.diagnostics.map Diagnostic.gist =
        (a.parse name text).tree.diagnostics.map Diagnostic.gist ∧
      ((a.parse name text).tree.errors = [] → ∀ memory, ∃ out out',
        a.assemble (a.parse name text).tree memory = some out ∧
        a.assemble (a.parse name text.withCarriageReturns).tree memory = some out' ∧
        out'.program = out.program ∧ out'.errors = out.errors) := by
  have hagrees := a.parse_alike (ha ▸ dialect_isUnbroken) (ha ▸ architecture_isLexical) name
    (textsAlike_withCarriageReturns text)
  exact ⟨hagrees.gists.symm, fun herrors memory => a.assemble_agrees hagrees herrors memory⟩

/-- An equate before a comment, a macro whose header ends in a comma, and a literal. -/
def trailingCommaSource : Text :=
  ".equ ONE, 1 ; one\n.macro put value,\nhere\\@: LDA #\\value\n.endm\n put ONE\n.byte \"a\", ONE\n"

theorem assemble_withCarriageReturns_trailingComma :
    let a := Assembler.ofArchitecture architecture
    (a.parse "demo" trailingCommaSource).tree.errors = [] ∧
      (a.parse "demo" trailingCommaSource.withCarriageReturns).tree.diagnostics.map Diagnostic.gist =
        (a.parse "demo" trailingCommaSource).tree.diagnostics.map Diagnostic.gist ∧
      ∃ out out', a.assemble (a.parse "demo" trailingCommaSource).tree a.freshMemory = some out ∧
        a.assemble (a.parse "demo" trailingCommaSource.withCarriageReturns).tree a.freshMemory = some out' ∧
        out'.program = out.program ∧ out'.errors = out.errors := by
  intro a
  have herrors : (a.parse "demo" trailingCommaSource).tree.errors = [] := by decide +kernel
  obtain ⟨hgists, hassemble⟩ := assemble_withCarriageReturns a rfl "demo" trailingCommaSource
  exact ⟨herrors, hgists, hassemble herrors a.freshMemory⟩

end Mos6502

end EightBit
