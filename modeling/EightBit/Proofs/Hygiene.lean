import Mathlib
import EightBit.Proofs.MacroLabel

/-!
# Names of expansions do not clash

Every expansion of the pass over a file takes a number of its own, whether it stands in the file or in the body of
another macro and whether or not its body can be filled in and scanned. Wherever `\@` stands in its body, the number
follows as the same suffix, and a word with this suffix is the name of no other word in any expansion.

* `Preprocess.substituteBody_mark`: what becomes of `\@`, wherever it stands.
* `Preprocess.IsHygienic`, `Preprocess.isHygienic_expandMacros`: the expansions of the pass over a file.
-/

namespace EightBit

namespace Preprocess

/-! ## The mark -/

/-- What becomes of `\@` in an expansion. -/
def Expansion.suffix (e : Expansion) : Text := ("_" : Text) ++ Text.ofNat e.serial

/-- The mark `\@` becomes the number of the expansion, wherever it stands in a body. -/
theorem substituteBody_mark (params : List Text) (args : List (List Token)) (serial : Nat) {slash mark : Token}
    (hslash : slash.isSymbol "\\") (hmark : mark.text = ("@" : Text)) (before after : List Token) :
    substituteBody params args serial (before ++ slash :: mark :: after) =
      (substituteBody params args serial before).bind fun a =>
        (substituteBody params args serial after).map fun b => a ++ ((("_" : Text) ++ Text.ofNat serial) ++ b) := by
  have hhere : substituteBody params args serial (slash :: mark :: after) =
      (substituteBody params args serial after).map ((("_" : Text) ++ Text.ofNat serial) ++ ·) := by
    rw [substituteBody, hslash, if_neg (by simp), if_pos hmark]
  -- A backslash is no parameter of the token before it.
  have hplain : slash.text ≠ ("@" : Text) ∧ ¬(slash.kind = .word ∨ slash.kind = .register) := by
    simp only [Token.isSymbol, Bool.and_eq_true, beq_iff_eq] at hslash
    rw [hslash.1, hslash.2]
    decide
  have hfront : ∀ (front : Text) (found : Option Text),
      (found.bind fun a => (substituteBody params args serial after).map fun b =>
        a ++ ((("_" : Text) ++ Text.ofNat serial) ++ b)).map (front ++ ·) =
      (found.map (front ++ ·)).bind fun a => (substituteBody params args serial after).map fun b =>
        a ++ ((("_" : Text) ++ Text.ofNat serial) ++ b) := by
    intro front found
    cases found <;> cases substituteBody params args serial after <;> simp
  fun_induction substituteBody params args serial before with
  | case1 => exact hhere
  | case2 t =>
    rw [List.singleton_append, substituteBody, if_neg hplain.1, if_neg hplain.2, ite_self, hhere, Option.map_map]
    rfl
  | case3 t next rest ht ih =>
    rw [← hfront, ← ih, List.cons_append, List.cons_append, substituteBody, if_pos ht]
  | case4 t next rest ht hnext ih =>
    rw [← hfront, ← ih, List.cons_append, List.cons_append, substituteBody, if_neg ht, if_pos hnext]
  | case5 t next rest ht hnext hkind hlookup =>
    rw [List.cons_append, List.cons_append, substituteBody, if_neg ht, if_neg hnext, if_pos hkind, hlookup]
    rfl
  | case6 t next rest ht hnext hkind arg hlookup ih =>
    rw [← hfront, ← ih, List.cons_append, List.cons_append, substituteBody, if_neg ht, if_neg hnext, if_pos hkind,
      hlookup]
  | case7 t next rest ht hnext hkind ih =>
    rw [← hfront, ← ih, List.cons_append, List.cons_append, substituteBody, if_neg ht, if_neg hnext, if_neg hkind]

/-! ## The pass over a file -/

/-- The expansions of the pass over a file, in the order in which they start: those in the bodies of macros stand
behind the one whose body it is. -/
def passExpansions (cfg : Config) (ctx : Context) (tokens : List Token) : List Expansion :=
  lineExpansions cfg.dialect [] ctx none (Line.ofTokens tokens)

/-- Expansions that show in an outcome and whose names do not clash. -/
structure IsHygienic (d : Dialect) (ctx : Context) (out : Output × Context) (es : List Expansion) : Prop where
  /-- The counter has counted the expansions, and nothing else. -/
  count : out.2.expansion = ctx.expansion + es.length
  /-- Those that succeed are recorded, in order. -/
  records : out.1.expansions = es.filterMap Expansion.record?
  /-- Those that fail are reported, in order. -/
  failures : out.1.failures = es.filterMap Expansion.report?
  /-- Their tokens are those of the rendered bodies. -/
  rendered : ∀ e ∈ es, e.IsRendered d
  /-- No two have the same number. -/
  serials : es.Pairwise fun e e' => e.serial ≠ e'.serial
  /-- Every `\@` in the body of an expansion becomes the suffix of the expansion. -/
  marks : ∀ e ∈ es, ∀ before slash mark after, e.source.body = before ++ slash :: mark :: after →
    slash.isSymbol "\\" → mark.text = ("@" : Text) →
      e.render e.source.body = (e.render before).bind fun a => (e.render after).map fun b => a ++ (e.suffix ++ b)
  /-- Words with suffixes are the same name only if the words and the expansions are the same. -/
  names : ∀ (i j : Nat) (e e' : Expansion), es[i]? = some e → es[j]? = some e' → ∀ word word' : Text,
    word ++ e.suffix = word' ++ e'.suffix ↔ word = word' ∧ i = j

/-- The names of expansions do not clash within a file. -/
theorem isHygienic_expandMacros (cfg : Config) (ctx : Context) (tokens : List Token) :
    IsHygienic cfg.dialect ctx (expandMacros cfg ctx tokens) (passExpansions cfg ctx tokens) := by
  have haccounts : Accounts cfg.dialect ctx (expandMacros cfg ctx tokens) (passExpansions cfg ctx tokens) :=
    accounts_expandLines cfg.dialect [] ctx none (Line.ofTokens tokens)
  refine ⟨haccounts.count, haccounts.records, haccounts.failures, haccounts.rendered, ?_, ?_, ?_⟩
  · have hnodup : ((passExpansions cfg ctx tokens).map Expansion.serial).Nodup := by
      rw [haccounts.serials]
      exact List.nodup_range'
    exact List.pairwise_map.1 hnodup
  · intro e _ before slash mark after hbody hslash hmark
    rw [hbody]
    exact substituteBody_mark _ _ e.serial hslash hmark before after
  · intro i j e e' he he' word word'
    have hname : word ++ e.suffix = word' ++ e'.suffix ↔ word = word' ∧ e.serial = e'.serial := Text.localName_inj
    rw [hname, haccounts.serial_eq he, haccounts.serial_eq he', Nat.add_left_cancel_iff]

/-- One macro invokes another one, and a third one uses a parameter that it does not have. -/
def nestedSource : Text :=
  (".macro inner p\nl\\@: .byte \\p\n.endm\n.macro outer\n inner 1\n.endm\n" : Text) ++
    (".macro bad\n .byte \\q\n.endm\n outer\n bad\n inner 2\n" : Text)

example : ((passExpansions { dialect := Mos6502.dialect } {}
    (Token.tokenize Mos6502.dialect "a.s" nestedSource).tokens).map
      fun e => (e.serial, e.source.name, e.tokens.isSome)) =
      ([(1, "outer", true), (2, "inner", true), (3, "bad", false), (4, "inner", true)] : List (Nat × Text × Bool)) := by
  decide +kernel

end Preprocess

end EightBit
