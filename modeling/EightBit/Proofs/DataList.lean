import Mathlib
import EightBit.Proofs.DataLine

/-!
# Lists of decimal values in data directives

What a line with a data directive of the 6502 and integers in decimal is assembled to. The line is data of all
its values, whose bytes follow each other, the lowest byte of each first, unless the first value is negative:
its sign then stands alone, which is no value, and the line is refused.

* `Mos6502.line_of_nonneg`, `Mos6502.line_of_neg`: the statement of the line, or why it is none.
* `Mos6502.valuesBytes_decimals`: the bytes of the values.
* `Mos6502.assemble_dataText`: what the line is assembled to.
-/

namespace EightBit

/-! ## Bytes of integers -/

/-- The lowest `size` bytes of a natural number, the lowest first. -/
def littleEndian (size n : Nat) : List UInt8 :=
  (List.range size).map fun k => (n / 256 ^ k % 256).toUInt8

theorem length_littleEndian (size n : Nat) : (littleEndian size n).length = size := by
  simp [littleEndian]

/-- The lowest bytes do not depend on what is above them. -/
theorem littleEndian_mod (size n : Nat) : littleEndian size (n % 2 ^ (8 * size)) = littleEndian size n := by
  refine List.map_congr_left fun k hk => congrArg Nat.toUInt8 ?_
  have hk : k < size := List.mem_range.1 hk
  have hpow : 2 ^ (8 * size) = 256 ^ k * 256 ^ (size - k) := by
    rw [← pow_add, Nat.add_sub_cancel' hk.le, pow_mul]
    rfl
  have hdvd : 256 ∣ 256 ^ (size - k) := dvd_pow_self 256 (by omega)
  rw [hpow, Nat.mod_mul_right_div_self, Nat.mod_mod_of_dvd _ hdvd]

theorem Word.littleBytes_eq (size : Nat) (value : UInt64) :
    littleBytes size value = littleEndian size value.toNat := by
  induction size generalizing value with
  | zero => rfl
  | succ size ih =>
    have hshift : (value >>> 8).toNat = value.toNat / 256 := by
      rw [UInt64.toNat_shiftRight]
      exact Nat.shiftRight_eq_div_pow value.toNat 8
    have hlow : value.toUInt8 = (value.toNat % 256).toUInt8 := by
      apply UInt8.toNat_inj.1
      simp
    -- The byte with number `k + 1` is the one with number `k` of what is left of the word.
    have hrest : littleEndian size (value.toNat / 256) =
        (List.range size).map fun k => (value.toNat / 256 ^ (k + 1) % 256).toUInt8 := by
      refine List.map_congr_left fun k _ => ?_
      rw [Nat.div_div_eq_div_mul, pow_succ']
    rw [littleBytes, ih, hshift, hrest, hlow, littleEndian, List.range_succ_eq_map]
    simp [Function.comp_def]

/-- The bytes of the word of an integer are those of its remainder. -/
theorem Word.littleBytes_ofInt {size : Nat} (hsize : size ≤ 8) (i : Int) :
    littleBytes size (UInt64.ofInt i) = littleEndian size (i % 2 ^ (8 * size)).toNat := by
  have hdvd : (2 : Int) ^ (8 * size) ∣ 2 ^ 64 := pow_dvd_pow 2 (by omega)
  have hmod : (i % 2 ^ 64).toNat % 2 ^ (8 * size) = (i % 2 ^ (8 * size)).toNat := by
    have hnonneg : 0 ≤ i % 2 ^ 64 := Int.emod_nonneg i (by decide)
    have hnonneg' : 0 ≤ i % 2 ^ (8 * size) := Int.emod_nonneg i (by positivity)
    zify
    rw [Int.toNat_of_nonneg hnonneg, Int.toNat_of_nonneg hnonneg', Int.emod_emod_of_dvd i hdvd]
  rw [littleBytes_eq, toNat_ofInt, ← littleEndian_mod, hmod]

theorem Line.ofTokens_of_free {tokens : List Token} (hne : tokens ≠ []) (h : ∀ t ∈ tokens, t.isNewline = false) :
    ofTokens tokens = [⟨tokens, none⟩] := by
  induction tokens with
  | nil => exact absurd rfl hne
  | cons t rest ih =>
    have ht := h t List.mem_cons_self
    cases rest with
    | nil => simp [ofTokens, ht]
    | cons u rest =>
      rw [ofTokens, ih (List.cons_ne_nil u rest) fun k hk => h k (List.mem_cons_of_mem t hk)]
      simp [ht]

theorem Statement.splitValues_of_free {tokens : List Token} (h : ∀ t ∈ tokens, t.isSymbol "," = false) :
    splitValues tokens = [tokens] := by
  induction tokens with
  | nil => rfl
  | cons t rest ih =>
    rw [splitValues, ih fun u hu => h u (List.mem_cons_of_mem t hu), h t List.mem_cons_self]
    rfl

theorem Statement.splitValues_append {tokens : List Token} (h : ∀ t ∈ tokens, t.isSymbol "," = false)
    {separator : Token} (hseparator : separator.isSymbol "," = true) (rest : List Token) :
    splitValues (tokens ++ separator :: rest) = tokens :: splitValues rest := by
  induction tokens with
  | nil => simp [splitValues, hseparator]
  | cons t tokens ih =>
    rw [List.cons_append, splitValues, ih fun u hu => h u (List.mem_cons_of_mem t hu),
      h t List.mem_cons_self]
    rfl

namespace Mos6502

open Scan

/-- The bytes of integers as elements of a size, one after the other. -/
def dataBytes (size : Nat) (xs : List Int) : List UInt8 :=
  xs.flatMap fun x => littleEndian size (x % 2 ^ (8 * size)).toNat

/-! ## The statement of the line -/

theorem isSymbol_comma_iff (t : Token) : t.isSymbol "," = true ↔ t.lexeme = comma := by
  have hcomma : ("," : Text) = [0x2C] := by decide
  simp [Token.isSymbol, Token.lexeme, comma, hcomma]

theorem decimal_ne_comma (x : Int) : decimal x ≠ comma := by
  intro h
  rcases kind_decimal x with hkind | hkind <;> simp [h, comma] at hkind

/-- The parts between the commas of a list are its first part and one part for each further value. -/
theorem splitValues_lexemes {first : List Lexeme} (hfirst : comma ∉ first) {xs : List Int}
    {tokens : List Token} (h : tokens.map Token.lexeme = first ++ moreValues xs) :
    (Statement.splitValues tokens).map (List.map Token.lexeme) =
      first :: xs.map fun x => [blank, decimal x] := by
  have hfree : ∀ {ts : List Token} {ls : List Lexeme}, ts.map Token.lexeme = ls → comma ∉ ls →
      ∀ t ∈ ts, t.isSymbol "," = false := by
    intro ts ls hts hls t ht
    rw [← Bool.not_eq_true, isSymbol_comma_iff]
    exact fun heq => hls (hts ▸ heq ▸ List.mem_map_of_mem ht)
  -- By induction on the further values: each of them closes the part before it with its comma.
  induction xs generalizing first tokens with
  | nil =>
    rw [moreValues, List.flatMap_nil, List.append_nil] at h
    rw [Statement.splitValues_of_free (hfree h hfirst), List.map_singleton, h]
    rfl
  | cons x xs ih =>
    obtain ⟨before, more, rfl, hbefore, hmore⟩ := List.map_eq_append_iff.1 h
    obtain ⟨separator, rest, rfl, hseparator, hrest⟩ := List.map_eq_cons_iff.1 hmore
    have hvalue : comma ∉ [blank, decimal x] := by
      simpa using ⟨by decide, (decimal_ne_comma x).symm⟩
    rw [Statement.splitValues_append (hfree hbefore hfirst) ((isSymbol_comma_iff separator).2 hseparator),
      List.map_cons, hbefore, ih hvalue hrest]
    rfl

theorem isSpace_decimal (x : Int) : (decimal x).kind.isSpace = false := by
  rcases kind_decimal x with hkind | hkind <;> rw [hkind] <;> rfl

/-- A part that is a blank and an integer is a value. -/
theorem value_decimal (line : List Token) {part : List Token} {x : Int}
    (h : part.map Token.lexeme = [blank, decimal x]) :
    ∃ t, t.lexeme = decimal x ∧ Statement.value line part = .ok { token := t } := by
  obtain ⟨space, more, rfl, hspace, hmore⟩ := List.map_eq_cons_iff.1 h
  obtain ⟨t, rest, rfl, ht, hrest⟩ := List.map_eq_cons_iff.1 hmore
  obtain rfl : rest = [] := List.map_eq_nil_iff.1 hrest
  have hblank : space.isSpace = true := Token.isSpace_of_lexeme hspace
  have hvisible : t.isSpace = false := (Token.isSpace_of_lexeme ht).trans (isSpace_decimal x)
  have hkind : t.kind = (decimal x).kind := congrArg Lexeme.kind ht
  have hconstant : t.kind.isConstant = true := by
    rcases kind_decimal x with hdecimal | hdecimal <;> rw [hkind, hdecimal] <;> rfl
  refine ⟨t, ht, ?_⟩
  simp [Statement.value, Token.trim, Token.trimRight, hblank, hvisible, hconstant]

/-- Parts that are integers are the values of a list. -/
theorem values_decimals (line : List Token) {parts : List (List Token)} {xs : List Int}
    (h : parts.map (List.map Token.lexeme) = xs.map fun x => [blank, decimal x]) :
    ∃ ts : List Token, ts.map Token.lexeme = xs.map decimal ∧
      Statement.values line parts = .ok (ts.map fun t => { token := t }) := by
  induction xs generalizing parts with
  | nil =>
    obtain rfl : parts = [] := by simpa using h
    exact ⟨[], rfl, rfl⟩
  | cons x xs ih =>
    obtain ⟨part, parts, rfl, hpart, hparts⟩ := List.map_eq_cons_iff.1 h
    obtain ⟨t, ht, hvalue⟩ := value_decimal line hpart
    obtain ⟨ts, hts, hvalues⟩ := ih hparts
    refine ⟨t :: ts, by simp [ht, hts], ?_⟩
    rw [Statement.values, hvalue, hvalues]
    rfl

/-- A sign that stands alone is no part of a value. -/
theorem value_minus (line : List Token) {part : List Token} {x : Int}
    (h : part.map Token.lexeme = [blank, ⟨.symbol, [0x2D]⟩, decimal x]) :
    Statement.value line part = .error (.error .dataSyntax line) := by
  obtain ⟨space, more, rfl, hspace, hmore⟩ := List.map_eq_cons_iff.1 h
  obtain ⟨minus, rest, rfl, hminus, hrest⟩ := List.map_eq_cons_iff.1 hmore
  obtain ⟨t, nothing, rfl, ht, hnothing⟩ := List.map_eq_cons_iff.1 hrest
  obtain rfl : nothing = [] := List.map_eq_nil_iff.1 hnothing
  have hblank : space.isSpace = true := Token.isSpace_of_lexeme hspace
  have hsign : minus.isSpace = false := Token.isSpace_of_lexeme hminus
  have hvisible : t.isSpace = false := (Token.isSpace_of_lexeme ht).trans (isSpace_decimal x)
  simp [Statement.value, Token.trim, Token.trimRight, hblank, hsign, hvisible]

/-- The line ends in an integer. -/
theorem exists_concat_dataLexemes (d : DataDirective) (x : Int) (xs : List Int) :
    ∃ before y, dataLexemes d x xs = before ++ [decimal y] := by
  rcases xs.eq_nil_or_concat with rfl | ⟨ys, y, rfl⟩
  · unfold dataLexemes firstValue
    split_ifs
    · exact ⟨[⟨.word, d.name⟩, blank, ⟨.symbol, [0x2D]⟩], -x, rfl⟩
    · exact ⟨[⟨.word, d.name⟩, blank], x, rfl⟩
  · refine ⟨⟨.word, d.name⟩ :: (firstValue x ++ (moreValues ys ++ [comma, blank])), y, ?_⟩
    simp [dataLexemes, moreValues]

/-- What a line does depends on its list of values alone. -/
theorem line_of_dataLexemes {d : DataDirective} (hd : d ∈ data) {x : Int} {xs : List Int}
    {tokens : List Token} (h : tokens.map Token.lexeme = dataLexemes d x xs) :
    ∃ args : List Token, args.map Token.lexeme = firstValue x ++ moreValues xs ∧
      ({} : Parse).line architecture tokens =
        match Statement.values tokens (Statement.splitValues args) with
        | .ok ops => ({} : Parse).add { tokens, element := .data d ops }
        | .error e => ({} : Parse).report e := by
  obtain ⟨-, -, -, -, -, hsection, hglobal, hglobl, horg, hfound⟩ := name_isDirective d hd
  have htrim : Token.trimRight tokens = tokens := by
    apply Token.trimRight_eq_self
    obtain ⟨before, y, hlast⟩ := exists_concat_dataLexemes d x xs
    rw [h, hlast, List.getLast?_concat, Option.all_some, isSpace_decimal]
    rfl
  obtain ⟨head, args, rfl, hhead, hargs⟩ := List.map_eq_cons_iff.1 h
  have hkind : head.kind = .word := congrArg Lexeme.kind hhead
  have htext : head.text = d.name := congrArg Lexeme.text hhead
  obtain ⟨space, more, hsplit, hspace, hblank⟩ : ∃ space more, args = space :: more ∧
      space.lexeme = blank ∧ Token.isBlank args = false := by
    -- Behind the directive stands a blank, and some visible token behind that.
    have hfirst : ∃ next ls, firstValue x ++ moreValues xs = blank :: next :: ls ∧
        next.kind.isSpace = false := by
      unfold firstValue
      split_ifs
      · exact ⟨_, _, rfl, rfl⟩
      · exact ⟨_, _, rfl, isSpace_decimal x⟩
    obtain ⟨next, ls, hls, hvisible⟩ := hfirst
    rw [hls] at hargs
    obtain ⟨space, more, rfl, hspace, hmore⟩ := List.map_eq_cons_iff.1 hargs
    obtain ⟨t, rest, rfl, ht, -⟩ := List.map_eq_cons_iff.1 hmore
    have hshown : t.isSpace = false := (Token.isSpace_of_lexeme ht).trans hvisible
    exact ⟨space, t :: rest, rfl, hspace, by simp [Token.isBlank, hshown]⟩
  have hlabels : Statement.splitLabels (head :: args) = ([], head :: args) := by
    rw [hsplit]
    refine Statement.splitLabels_of_ne_colon ?_ ?_ more
    · rw [Token.isSpace, hkind]
      rfl
    · rw [show space.text = [0x20] from congrArg Lexeme.text hspace]
      decide
  have hdirective : architecture.directive? d.name = some d := hfound
  have helement : Statement.element architecture head args =
      (Statement.values (head :: args) (Statement.splitValues args)).map (.data d) := by
    simp [Statement.element, Statement.ofWord, Statement.data, Token.isSymbol, Token.is, hkind, htext,
      hsection, hglobal, hglobl, horg, hdirective, hblank]
  refine ⟨args, hargs, ?_⟩
  simp only [Parse.line, htrim, hlabels, List.foldl_nil, Statement.node, helement]
  cases Statement.values (head :: args) (Statement.splitValues args) with
  | ok ops => simp [Except.map]
  | error e => rfl

/-- A line whose first value is not negative is the data of its values. -/
theorem line_of_nonneg {d : DataDirective} (hd : d ∈ data) {x : Int} (hx : 0 ≤ x) {xs : List Int}
    {tokens : List Token} (h : tokens.map Token.lexeme = dataLexemes d x xs) :
    ∃ ts : List Token, ts.map Token.lexeme = (x :: xs).map decimal ∧
      ({} : Parse).line architecture tokens =
        { nodes := [{ tokens, element := .data d (ts.map fun t => { token := t }) }] } := by
  obtain ⟨args, hargs, hline⟩ := line_of_dataLexemes hd h
  have hfirst : firstValue x = [blank, decimal x] := if_neg (by omega)
  rw [hfirst] at hargs
  have hfree : comma ∉ [blank, decimal x] := by
    simpa using ⟨by decide, (decimal_ne_comma x).symm⟩
  have hparts := splitValues_lexemes hfree hargs
  rw [← List.map_cons (f := fun x => [blank, decimal x])] at hparts
  obtain ⟨ts, hts, hvalues⟩ := values_decimals tokens hparts
  refine ⟨ts, hts, ?_⟩
  rw [hline, hvalues]
  rfl

/-- A line whose first value is negative is refused. -/
theorem line_of_neg {d : DataDirective} (hd : d ∈ data) {x : Int} (hx : x < 0) {xs : List Int}
    {tokens : List Token} (h : tokens.map Token.lexeme = dataLexemes d x xs) :
    ({} : Parse).line architecture tokens = { errors := [.error .dataSyntax tokens] } := by
  obtain ⟨args, hargs, hline⟩ := line_of_dataLexemes hd h
  have hfirst : firstValue x = [blank, ⟨.symbol, [0x2D]⟩, decimal (-x)] := if_pos hx
  rw [hfirst] at hargs
  have hfree : comma ∉ [blank, ⟨.symbol, [0x2D]⟩, decimal (-x)] := by
    simpa using ⟨by decide, by decide, (decimal_ne_comma (-x)).symm⟩
  obtain ⟨part, parts, hsplit, hpart, -⟩ := List.map_eq_cons_iff.1 (splitValues_lexemes hfree hargs)
  have hvalues : Statement.values tokens (part :: parts) = .error (.error .dataSyntax tokens) := by
    rw [Statement.values, value_minus tokens hpart]
    rfl
  rw [hline, hsplit, hvalues]
  rfl

/-! ## The tree of the line -/

/-- The line is the only one of its file. -/
theorem lines_of_dataLexemes {d : DataDirective} (hd : d ∈ data) (x : Int) (xs : List Int)
    {ends : List Lexeme} (hends : IsEnding ends) {tokens : List Token}
    (h : tokens.map Token.lexeme = dataLexemes d x xs ++ ends) :
    ∃ line : List Token, line.map Token.lexeme = dataLexemes d x xs ∧
      Parse.lines architecture {} (Line.ofTokens tokens) = ({} : Parse).line architecture line := by
  obtain ⟨line, after, rfl, hline, hafter⟩ := List.map_eq_append_iff.1 h
  have hfree := Token.not_isNewline_of_mem hline fun l hl => (unclosed_dataLexemes hd x xs l hl).2
  refine ⟨line, hline, ?_⟩
  rcases hends with rfl | rfl
  · obtain rfl : after = [] := List.map_eq_nil_iff.1 hafter
    have hne : line ≠ [] := by
      rintro rfl
      simp [dataLexemes] at hline
    rw [List.append_nil, Line.ofTokens_of_free hne hfree]
    rfl
  · obtain ⟨newline, rest, rfl, hnewline, hrest⟩ := List.map_eq_cons_iff.1 hafter
    obtain rfl : rest = [] := List.map_eq_nil_iff.1 hrest
    have hend : newline.isNewline := Token.isNewline_of_lexeme hnewline
    rw [Line.ofTokens_append hfree hend]
    rfl

theorem isWord_decimal {t : Token} {x : Int} (ht : t.lexeme = decimal x) :
    ({ token := t } : Operand).isWord = false := by
  rw [Operand.isWord, show t.kind = (decimal x).kind from congrArg Lexeme.kind ht]
  rcases kind_decimal x with hkind | hkind <;> rw [hkind] <;> rfl

section Parsing

variable {a : Assembler} (harch : a.arch = architecture) {d : DataDirective} (hd : d ∈ data)
  (hpredefined : a.predefined.lookup d.name = none) (name : Text)

include harch hd hpredefined

/-- The tree of the line is linked from what its only line is parsed to. -/
theorem tree_of_dataLexemes (x : Int) (xs : List Int) {ends : List Lexeme} (hends : IsEnding ends) :
    ∃ (r : Preprocessed) (line : List Token), r.output.imports = [] ∧ r.output.diagnostics = [] ∧
      line.map Token.lexeme = dataLexemes d x xs ∧
      Parse.lines architecture {} (Line.ofTokens r.output.tokens) = ({} : Parse).line architecture line ∧
      (a.parse name ((dataLexemes d x xs ++ ends).flatMap Lexeme.text)).tree =
        (Tree.ofPreprocessed architecture r).link architecture := by
  obtain ⟨tokens, htokens, hpre⟩ := preprocessed_dataLexemes harch hd hpredefined name x xs hends
  obtain ⟨line, hline, hlines⟩ := lines_of_dataLexemes hd x xs hends htokens
  refine ⟨{ file := name, output := { tokens, events := [.finished name tokens.length 0 0] } }, line, rfl, rfl,
    hline, hlines, ?_⟩
  rw [Assembler.tree_parse, hpre, harch]

/-- A line whose first value is not negative is parsed to one statement with all its values. -/
theorem parse_of_nonneg {x : Int} (hx : 0 ≤ x) (xs : List Int) {ends : List Lexeme}
    (hends : IsEnding ends) :
    let tree := (a.parse name ((dataLexemes d x xs ++ ends).flatMap Lexeme.text)).tree
    tree.diagnostics = [] ∧ ∃ (n : Node) (ts : List Token), tree.nodes = [n] ∧
      n.element = .data d (ts.map fun t => { token := t }) ∧ n.address = none ∧
      ts.map Token.lexeme = (x :: xs).map decimal := by
  intro tree
  obtain ⟨r, line, himports, hreported, hline, hlines, htree⟩ :=
    tree_of_dataLexemes harch hd hpredefined name x xs hends
  obtain ⟨ts, hts, hnode⟩ := line_of_nonneg hd hx hline
  rw [hnode] at hlines
  have hdup : ∀ n ∈ [({ tokens := line, element := .data d (ts.map fun t => { token := t }) } : Node)],
      ∀ s, Link.dropDuplicate s n = (s, some n) := by
    intro n hn s
    rw [List.mem_singleton.1 hn]
    rfl
  have hrefs : ∀ n ∈ [({ tokens := line, element := .data d (ts.map fun t => { token := t }) } : Node)],
      ∀ s, Link.resolve architecture s n = (s, some n) := by
    intro n hn s
    rw [List.mem_singleton.1 hn]
    refine Link.resolve_of_constants architecture s (by simp [Node.kind, Element.kind]) fun op hop => ?_
    -- Every value is a constant, so that no label is looked up.
    obtain ⟨t, ht, rfl⟩ := List.mem_map.1 hop
    have hmem : t.lexeme ∈ (x :: xs).map decimal := hts ▸ List.mem_map_of_mem ht
    obtain ⟨y, -, hy⟩ := List.mem_map.1 hmem
    exact ⟨isWord_decimal hy.symm, rfl⟩
  obtain ⟨hquiet, hnodes⟩ := tree_of_settled himports hlines rfl hdup hrefs
  rw [show tree = _ from htree, hquiet, hnodes, hreported]
  exact ⟨rfl, _, ts, rfl, rfl, rfl, hts⟩

/-- A line whose first value is negative is reported. -/
theorem parse_of_neg {x : Int} (hx : x < 0) (xs : List Int) {ends : List Lexeme} (hends : IsEnding ends) :
    ∃ line : List Token, line.map Token.lexeme = dataLexemes d x xs ∧
      (a.parse name ((dataLexemes d x xs ++ ends).flatMap Lexeme.text)).tree.diagnostics =
        [.error .dataSyntax line] := by
  obtain ⟨r, line, himports, hreported, hline, hlines, htree⟩ :=
    tree_of_dataLexemes harch hd hpredefined name x xs hends
  rw [line_of_neg hd hx hline] at hlines
  obtain ⟨hrefused, -⟩ := tree_of_settled himports hlines rfl (by simp) (by simp)
  refine ⟨line, hline, ?_⟩
  rw [htree, hrefused, hreported]
  rfl

end Parsing

/-! ## The bytes of the values -/

/-- An integer of signed 64 bits is the value of its constant. -/
theorem valueIn_decimal {t : Token} {x : Int} (ht : t.lexeme = decimal x) (hx : isInt64 x = true) :
    t.valueIn dialect = .ok x := by
  have hkind : t.kind = .dec ∨ t.kind = .udec := by
    rw [show t.kind = (decimal x).kind from congrArg Lexeme.kind ht]
    exact kind_decimal x
  have htext : t.text = Text.ofInt x := congrArg Lexeme.text ht
  have hradix : t.radix dialect = (10, []) := by
    rcases hkind with hkind | hkind <;> simp [Token.radix, hkind]
  have hplain : Text.without 0x5F (Text.ofInt x) = Text.ofInt x := by
    rw [Text.without, List.filter_eq_self]
    intro b hb
    rw [bne_iff_ne]
    rintro rfl
    exact Text.underscore_not_mem_ofInt x hb
  have hdigits : t.digitsIn dialect = Text.ofInt x := by
    rw [Token.digitsIn, hradix, htext]
    exact hplain
  rcases hkind with hkind | hkind <;>
    simp [Token.valueIn, hkind, hdigits, hradix, Text.toInt?_ofInt, hx]

/-- An integer that fits into an element is encoded to its bytes. -/
theorem valueBytes_decimal {enc : Encoding} (harch : enc.arch = architecture) {d : DataDirective}
    (hd : d ∈ data) {t : Token} {x : Int} (ht : t.lexeme = decimal x)
    (hx : -2 ^ (8 * d.size - 1) ≤ x ∧ x < 2 ^ (8 * d.size)) :
    enc.valueBytes d.size { token := t } = .ok (littleEndian d.size (x % 2 ^ (8 * d.size)).toNat) := by
  -- Elements have at most four bytes, so that what fits into one is far from the bounds of a word.
  have hsmall : -2 ^ 31 ≤ x ∧ x < 2 ^ 32 := by
    rcases size_cases d hd with h | h | h <;> rw [h] at hx <;> norm_num at hx ⊢ <;> omega
  have hint : isInt64 x = true := by
    simp only [isInt64, Bool.and_eq_true, decide_eq_true_eq]
    omega
  have hstring : t.kind ≠ .string := by
    rw [show t.kind = (decimal x).kind from congrArg Lexeme.kind ht]
    rcases kind_decimal x with hkind | hkind <;> simp [hkind]
  have hvalue : enc.value { token := t } = .ok (UInt64.ofInt x) := by
    have hdialect : enc.arch.dialect = dialect := by rw [harch]; rfl
    simp [Encoding.value, isWord_decimal ht, hdialect, valueIn_decimal ht hint]
  have hfits : Encoding.fits (Word.toInt (UInt64.ofInt x)) d.size = true := by
    rw [Word.toInt_ofInt (by omega) (by omega)]
    simp [Encoding.fits, Int.pow_eq, hx.1, hx.2]
  have hencode : enc.arch.encode (UInt64.ofInt x) d.size =
      littleEndian d.size (x % 2 ^ (8 * d.size)).toNat := by
    rw [harch]
    refine Word.littleBytes_ofInt ?_ x
    rcases size_cases d hd with h | h | h <;> omega
  rw [Encoding.valueBytes, if_neg hstring, hvalue, ← hencode]
  simp [bind, Except.bind, hfits, pure, Except.pure]

/-- The bytes of a list are those of its values, one after the other. -/
theorem valuesBytes_decimals {enc : Encoding} (harch : enc.arch = architecture) {d : DataDirective}
    (hd : d ∈ data) {xs : List Int} (hxs : ∀ x ∈ xs, -2 ^ (8 * d.size - 1) ≤ x ∧ x < 2 ^ (8 * d.size))
    {ts : List Token} (hts : ts.map Token.lexeme = xs.map decimal) :
    enc.valuesBytes d.size (ts.map fun t => { token := t }) = .ok (dataBytes d.size xs) := by
  induction xs generalizing ts with
  | nil =>
    obtain rfl : ts = [] := by simpa using hts
    rfl
  | cons x xs ih =>
    obtain ⟨t, ts, rfl, ht, hrest⟩ := List.map_eq_cons_iff.1 hts
    rw [List.map_cons, Encoding.valuesBytes, valueBytes_decimal harch hd ht (hxs x List.mem_cons_self),
      ih (fun y hy => hxs y (List.mem_cons_of_mem x hy)) hrest]
    rfl

/-- The statement of a list has a row with the bytes of its values. -/
theorem emit?_decimals (enc : Encoding) (harch : enc.arch = architecture) {d : DataDirective} (hd : d ∈ data)
    {xs : List Int} (hxs : ∀ x ∈ xs, -2 ^ (8 * d.size - 1) ≤ x ∧ x < 2 ^ (8 * d.size)) {ts : List Token}
    (hts : ts.map Token.lexeme = xs.map decimal) {n : Node}
    (helement : n.element = .data d (ts.map fun t => { token := t })) :
    ∃ e : Emission, enc.emit? n = some (.ok e) ∧ e.row.bytes = dataBytes d.size xs ∧
      e.row.address = n.addr := by
  obtain ⟨row, hdata, hbytes, haddress⟩ : ∃ row : Row,
      enc.data n.addr d (ts.map fun t => { token := t }) = .ok row ∧ row.bytes = dataBytes d.size xs ∧
        row.address = n.addr := by
    rw [Encoding.data, valuesBytes_decimals harch hd hxs hts]
    exact ⟨_, rfl, rfl, rfl⟩
  refine ⟨⟨{ row with loc := n.loc, labels := enc.labels.namesAt n.addr }, .data⟩, ?_, hbytes, haddress⟩
  simp only [Encoding.emit?, helement, hdata]

/-! ## The program of the line -/

/-- A statement with data that stands alone is placed at the origin or at the next multiple of its size. -/
theorem run_data (origin : UInt64) (labels : LabelTable) {n : Node} {d : DataDirective} (hd : d ∈ data)
    {ops : List Operand} (helement : n.element = .data d ops) (haddress : n.address = none) :
    ∃ addr : UInt64, addr.toNat < 2 ^ 17 ∧
      (Layout.run architecture origin labels [n]).nodes = [{ n with address := some addr }] ∧
      (Layout.run architecture origin labels [n]).errors = [] := by
  have hlabel : n.declared? = none := by
    unfold Node.declared?
    rw [helement]
  have hkind : n.kind ≠ .setPc := by
    rw [Node.kind, helement]
    simp [Element.kind]
  have horigin : (origin &&& architecture.addressMask).toNat < 2 ^ 16 := by
    have hmask := Word.toNat_and_mask origin (n := 16) (by decide)
    exact hmask ▸ Nat.mod_lt _ (by decide)
  have hstep : Layout.run architecture origin labels [n] =
      Layout.step architecture { next := origin &&& architecture.addressMask, labels } n := rfl
  rw [hstep, Layout.step_of_not_label architecture _ haddress hlabel]
  -- Only the next multiple of the size may lie behind the address space, by less than one element.
  cases halign : n.element.alignment? with
  | none =>
    rw [Layout.advance_of_alignment?_eq_none architecture _ hkind halign]
    exact ⟨_, lt_trans horigin (by decide), rfl, rfl⟩
  | some size =>
    rw [Layout.advance_of_alignment? architecture _ halign]
    refine ⟨Layout.alignUp (origin &&& architecture.addressMask) size, ?_, rfl, rfl⟩
    have hsize : size.toNat ≤ 4 := by
      rw [helement, Element.alignment?] at halign
      split_ifs at halign
      rw [← Option.some.inj halign]
      rcases size_cases d hd with h | h | h <;> rw [h] <;> decide
    have hle := Layout.toNat_alignUp_le (origin &&& architecture.addressMask) size
    omega

/-- The program of a single row with bytes. -/
theorem binary_singleton {e : Emission} (hne : e.row.bytes ≠ []) {m : Memory} (hwidth : m.width = 16)
    (haddr : e.row.address.toNat < 2 ^ 17) :
    (Program.ofEmissions architecture m [e]).rows = [e.row] ∧
      (e.row.bytes.length ≤ 2 ^ 16 → (Program.ofEmissions architecture m [e]).binary = e.row.bytes) := by
  have hrows : [e.row].filter (fun r => !r.bytes.isEmpty) = [e.row] := by simp [hne]
  refine ⟨hrows, fun hfit => ?_⟩
  have hbinary : (Program.ofEmissions architecture m [e]).binary =
      (m.load e.row.address e.row.bytes e.mark).slice e.row.address e.row.stop := by
    simp only [Program.binary, Program.ofEmissions, List.map_cons, List.map_nil, hrows, Program.bounds,
      List.foldl_cons, List.foldl_nil]
  have hstop : e.row.address.toNat + e.row.bytes.length = e.row.stop.toNat := by
    rw [Row.stop, UInt64.toNat_add, Word.toNat_toUInt64 (by omega), Nat.mod_eq_of_lt (by omega)]
  rw [hbinary, Memory.slice_eq_readBytes _ hstop]
  exact m.readBytes_load (by omega) _ _ _ (by rw [hwidth]; exact hfit)

theorem length_dataBytes (size : Nat) (xs : List Int) : (dataBytes size xs).length = size * xs.length := by
  simp [dataBytes, length_littleEndian, Nat.mul_comm]

/-- A tree whose only statement is data of integers that fit is assembled without errors to their bytes. -/
theorem assemble_decimals {t : Tree} {n : Node} (hnodes : t.nodes = [n]) {d : DataDirective} (hd : d ∈ data)
    {ts : List Token} (helement : n.element = .data d (ts.map fun t => { token := t }))
    (haddress : n.address = none) {xs : List Int} (hne : xs ≠ []) (hts : ts.map Token.lexeme = xs.map decimal)
    (hxs : ∀ x ∈ xs, -2 ^ (8 * d.size - 1) ≤ x ∧ x < 2 ^ (8 * d.size)) (origin : UInt64) (wrap : Bool)
    {m : Memory} (hwidth : m.width = 16) :
    (t.assemble architecture origin wrap m).errors = [] ∧
      (t.assemble architecture origin wrap m).program.rows.map Row.bytes = [dataBytes d.size xs] ∧
      ((dataBytes d.size xs).length ≤ 2 ^ 16 →
        (t.assemble architecture origin wrap m).program.binary = dataBytes d.size xs) := by
  obtain ⟨addr, haddr, hplaced, herrors⟩ := run_data origin t.labels hd helement haddress
  have hlayout : (t.layout architecture origin).1.nodes = [{ n with address := some addr }] := by
    rw [Tree.nodes_layout, hnodes, hplaced]
  have hmisplaced : (t.layout architecture origin).2 = [] := by
    rw [← hnodes] at herrors
    exact herrors
  obtain ⟨e, hemit, hbytes, hrow⟩ := emit?_decimals
    ⟨architecture, wrap, (t.layout architecture origin).1.labels⟩ rfl hd hxs hts
    (n := { n with address := some addr }) helement
  have hnonempty : e.row.bytes ≠ [] := by
    have hpos : 0 < d.size * xs.length := by
      refine Nat.mul_pos ?_ (List.length_pos_of_ne_nil hne)
      rcases size_cases d hd with h | h | h <;> omega
    rw [hbytes, ← List.length_pos_iff, length_dataBytes]
    exact hpos
  obtain ⟨hrows, hbinary⟩ := binary_singleton hnonempty hwidth (by rw [hrow]; exact haddr)
  rw [hbytes] at hbinary
  simp only [Tree.assemble, hlayout, hmisplaced, List.filterMap_cons, List.filterMap_nil, hemit,
    Except.toOption]
  exact ⟨rfl, by rw [hrows, List.map_singleton, hbytes], hbinary⟩

/-- A line with a data directive and integers that fit into its elements is assembled if and only if the first
integer is not negative. The line then has one row, with the bytes of all integers in order, and these are the
bytes of the program where they fit into the memory. Behind the directive a minus sign is no part of a number,
so that the line is refused if its first integer is negative. -/
theorem assemble_dataText {a : Assembler} (harch : a.arch = architecture) {d : DataDirective} (hd : d ∈ data)
    (hpredefined : a.predefined.lookup d.name = none) (x : Int) (xs : List Int)
    (hrange : ∀ y ∈ x :: xs, -2 ^ (8 * d.size - 1) ≤ y ∧ y < 2 ^ (8 * d.size)) {ending : Text}
    (hending : ending = [] ∨ ending = [0x0A]) (name : Text) (memory : Memory) (hwidth : memory.width = 16) :
    let tree := (a.parse name (dataText d (x :: xs) ++ ending)).tree
    (0 ≤ x → tree.diagnostics = [] ∧ ∃ out, a.assemble tree memory = some out ∧ out.errors = [] ∧
      out.program.rows.map Row.bytes = [dataBytes d.size (x :: xs)] ∧
      (d.size * (xs.length + 1) ≤ 2 ^ 16 → out.program.binary = dataBytes d.size (x :: xs))) ∧
    (x < 0 → (∃ line, tree.diagnostics = [.error .dataSyntax line]) ∧ a.assemble tree memory = none) := by
  intro tree
  obtain ⟨ends, hends, htext⟩ : ∃ ends, IsEnding ends ∧ ends.flatMap Lexeme.text = ending := by
    rcases hending with rfl | rfl
    · exact ⟨[], .inl rfl, rfl⟩
    · exact ⟨[⟨.newline, [0x0A]⟩], .inr rfl, rfl⟩
  have hsource : (dataLexemes d x xs ++ ends).flatMap Lexeme.text = dataText d (x :: xs) ++ ending := by
    rw [List.flatMap_append, text_dataLexemes, htext]
  -- The sign of the first integer decides, since it is a symbol of its own behind the directive.
  constructor
  · intro hx
    obtain ⟨hquiet, n, ts, hnodes, helement, haddress, hts⟩ :=
      parse_of_nonneg harch hd hpredefined name hx xs hends
    rw [hsource] at hquiet hnodes
    obtain ⟨herrors, hrows, hbinary⟩ := assemble_decimals hnodes hd helement haddress
      (List.cons_ne_nil x xs) hts hrange a.origin a.wrapBranches hwidth
    have hempty : tree.errors.isEmpty = true := by
      rw [Tree.errors, show tree.diagnostics = [] from hquiet]
      rfl
    rw [length_dataBytes, List.length_cons] at hbinary
    refine ⟨hquiet, _, if_pos hempty, ?_⟩
    rw [harch]
    exact ⟨herrors, hrows, hbinary⟩
  · intro hx
    obtain ⟨line, -, hreported⟩ := parse_of_neg harch hd hpredefined name hx xs hends
    rw [hsource] at hreported
    refine ⟨⟨line, hreported⟩, if_neg ?_⟩
    rw [Tree.errors, show tree.diagnostics = _ from hreported]
    simp [Diagnostic.error, Diagnostic.isError]

/-- Aligned data with both bounds of its range and negative values behind commas. -/
theorem assemble_dataText_half :
    ∃ out, (Assembler.ofArchitecture architecture).assemble
        ((Assembler.ofArchitecture architecture).parse "list" (dataText
          { name := ".half", size := 2, aligned := true } [300, -2, 65535, -32768, 0] ++ [0x0A])).tree
        (.empty 16 none) = some out ∧ out.errors = [] ∧
      out.program.binary = [0x2C, 0x01, 0xFE, 0xFF, 0xFF, 0xFF, 0x00, 0x80, 0x00, 0x00] := by
  have hbytes : dataBytes 2 [300, -2, 65535, -32768, 0] =
      [0x2C, 0x01, 0xFE, 0xFF, 0xFF, 0xFF, 0x00, 0x80, 0x00, 0x00] := by decide
  obtain ⟨-, out, hout, herrors, -, hbinary⟩ := (assemble_dataText
    (a := Assembler.ofArchitecture architecture) rfl
    (d := { name := ".half", size := 2, aligned := true }) (by decide) rfl 300 [-2, 65535, -32768, 0]
    (by decide) (.inr rfl) "list" (.empty 16 none) rfl).1 (by decide)
  exact ⟨out, hout, herrors, (hbinary (by decide)).trans hbytes⟩

/-- A negative value behind the directive is refused, although it fits and is taken behind a comma. -/
theorem first_value_refused :
    let refused := (Assembler.ofArchitecture architecture).parse "list" (".byte -1\n" : Text)
    let taken := (Assembler.ofArchitecture architecture).parse "list" (".byte 1, -1\n" : Text)
    refused.tree.diagnostics.map Diagnostic.cause = [.dataSyntax] ∧
      ((Assembler.ofArchitecture architecture).assemble refused.tree (.empty 16 none)).isNone ∧
      ((Assembler.ofArchitecture architecture).assemble taken.tree (.empty 16 none)).map
        (fun out => (out.errors, out.program.binary)) = some ([], [0x01, 0xFF]) := by
  decide +kernel

end Mos6502

end EightBit
