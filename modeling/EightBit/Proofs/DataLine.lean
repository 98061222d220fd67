import Mathlib
import EightBit.Proofs.Constant
import EightBit.Proofs.RoundTrip

/-!
# Lines with a data directive and decimal values

A line of source text with a data directive of the 6502 and integers in decimal, as it is scanned and
preprocessed. A minus sign is part of a number only where no operand stands before it, and the directive
counts as one. Behind a comma a negative integer is therefore one lexeme, but behind the directive it falls
into a sign and a numeral.

* `Mos6502.dataText`: the line; `Mos6502.dataLexemes` are its lexemes.
* `Mos6502.readsFrom_dataLexemes`: the line is scanned to these lexemes.
* `Mos6502.preprocessed_dataLexemes`: they pass through the preprocessor unchanged.
-/

namespace EightBit

/-! ## Texts -/

theorem Text.joinWith_cons (separator t : Text) (ts : List Text) :
    joinWith separator (t :: ts) = t ++ ts.flatMap (separator ++ ·) := by
  induction ts generalizing t with
  | nil => simp [joinWith]
  | cons u ts ih =>
    rw [joinWith, ih]
    · simp
    · simp

theorem Text.ofInt_of_neg {x : Int} (hx : x < 0) : ofInt x = 0x2D :: ofInt (-x) := by
  obtain ⟨n, rfl⟩ := Int.eq_negSucc_of_lt_zero hx
  rfl

namespace Mos6502

open Scan

/-! ## The line -/

/-- A line with a data directive and integers in decimal, without its end. -/
def dataText (d : DataDirective) (xs : List Int) : Text :=
  d.name ++ (" " : Text) ++ Text.joinWith ", " (xs.map Text.ofInt)

/-- The comma between two values. -/
def comma : Lexeme := ⟨.symbol, [0x2C]⟩

/-- The blank before a value. -/
def blank : Lexeme := ⟨.whitespace, [0x20]⟩

/-- An integer that is one constant. -/
def decimal (x : Int) : Lexeme := ⟨if x < 0 then .dec else .udec, Text.ofInt x⟩

/-- The lexemes of an integer behind the directive, where a sign stands alone. -/
def firstValue (x : Int) : List Lexeme :=
  if x < 0 then [blank, ⟨.symbol, [0x2D]⟩, decimal (-x)] else [blank, decimal x]

/-- The lexemes of the values behind the first one, each with the comma in front of it. -/
def moreValues (xs : List Int) : List Lexeme := xs.flatMap fun x => [comma, blank, decimal x]

/-- The lexemes of a line with a data directive and integers. -/
def dataLexemes (d : DataDirective) (x : Int) (xs : List Int) : List Lexeme :=
  ⟨.word, d.name⟩ :: (firstValue x ++ moreValues xs)

theorem kind_decimal (x : Int) : (decimal x).kind = .dec ∨ (decimal x).kind = .udec := by
  simp only [decimal]
  split_ifs
  · exact .inl rfl
  · exact .inr rfl

/-- Data directives are words and name no register, and each of them is found by its name alone. -/
theorem name_isDirective : ∀ d ∈ data,
    (d.name.head?.any fun b => isPlain dialect b && isWordStart b) ∧ d.name.tail.all isWordPart ∧
      (dialect.register? d.name).isNone ∧ isPassive ⟨.word, d.name⟩ ∧
      d.name ∉ ([")", "ORIGIN", "ADDRESS_WIDTH"] : List Text) ∧
      SectionKind.ofDirective? d.name = none ∧ d.name.equalFold ".global" = false ∧
      d.name.equalFold ".globl" = false ∧ d.name.equalFold ".org" = false ∧
      data.find? (·.name.equalFold d.name) = some d := by
  decide

theorem size_cases : ∀ d ∈ data, d.size = 1 ∨ d.size = 2 ∨ d.size = 4 := by
  decide

/-- The line is the text of its lexemes. -/
theorem text_dataLexemes (d : DataDirective) (x : Int) (xs : List Int) :
    (dataLexemes d x xs).flatMap Lexeme.text = dataText d (x :: xs) := by
  have hseparator : (", " : Text) = [0x2C, 0x20] := by decide
  have hblank : (" " : Text) = [0x20] := by decide
  have hfirst : (firstValue x).flatMap Lexeme.text = 0x20 :: Text.ofInt x := by
    unfold firstValue
    split_ifs with hx
    · simp [blank, decimal, Text.ofInt_of_neg hx]
    · simp [blank, decimal]
  have hmore : (moreValues xs).flatMap Lexeme.text =
      (xs.map Text.ofInt).flatMap ((", " : Text) ++ ·) := by
    rw [moreValues, List.flatMap_assoc, List.flatMap_map, hseparator]
    simp [comma, blank, decimal]
  rw [dataLexemes, dataText, List.map_cons, Text.joinWith_cons, List.flatMap_cons, List.flatMap_append, hfirst,
    hmore, hblank]
  simp

/-! ## Scanning the line -/

/-- The digits of a natural number in decimal. -/
theorem exists_digits_ofNat (n : Nat) : ∃ ds : Digits isDigit, ds.text = Text.ofNat n := by
  obtain ⟨b, more, hcons⟩ := List.exists_cons_of_ne_nil (Text.ofNat_ne_nil n)
  have hdigit : ∀ c ∈ b :: more, isDigit c := fun c hc => Text.isDigit_of_mem_ofNat (hcons ▸ hc)
  exact ⟨⟨b, more, hdigit b List.mem_cons_self, fun c hc => by simp [hdigit c (List.mem_cons_of_mem b hc)]⟩,
    hcons.symm⟩

/-- A numeral without a sign is read back before the end of a value. -/
theorem reads_ofNat (n : Nat) {rest : Text} (hrest : rest.head?.all endsConstant) :
    Reads dialect ⟨.udec, Text.ofNat n⟩ rest := by
  obtain ⟨ds, htext⟩ := exists_digits_ofNat n
  rw [← htext]
  exact Constant.reads_udec hrest ds

/-- A numeral with a minus sign is read back where a sign belongs to a number. -/
theorem readsIn_negative (n : Nat) {rest : Text} (hrest : rest.head?.all endsConstant) {st : State}
    (hsigned : st.signed = true) : ReadsIn dialect st ⟨.dec, 0x2D :: Text.ofNat n⟩ rest := by
  obtain ⟨ds, htext⟩ := exists_digits_ofNat n
  rw [← htext]
  exact Constant.readsIn hrest (.dec 0x2D (.inl rfl) ds) hsigned

/-- An integer is read back where a sign belongs to a number. -/
theorem readsIn_decimal (x : Int) {rest : Text} (hrest : rest.head?.all endsConstant) {st : State}
    (hsigned : st.signed = true) : ReadsIn dialect st (decimal x) rest := by
  cases x with
  | ofNat n => exact (reads_ofNat n hrest).readsIn st
  | negSucc n =>
    have hdecimal : decimal (.negSucc n) = ⟨.dec, 0x2D :: Text.ofNat (n + 1)⟩ := by
      simp [decimal, Text.ofInt, Int.negSucc_lt_zero]
    rw [hdecimal]
    exact readsIn_negative (n + 1) hrest hsigned

/-- An integer that is not negative is read back everywhere. -/
theorem reads_decimal {x : Int} (hx : 0 ≤ x) {rest : Text} (hrest : rest.head?.all endsConstant) :
    Reads dialect (decimal x) rest := by
  obtain ⟨n, rfl⟩ := Int.eq_ofNat_of_zero_le hx
  exact reads_ofNat n hrest

theorem reads_comma (rest : Text) : Reads dialect comma rest := reads_symbol (by decide) rest

/-- The blank before an integer is read back. -/
theorem reads_blank (x : Int) (rest : Text) : Reads dialect blank ((decimal x).text ++ rest) := by
  refine Reads.blank ?_
  have hdigit : ∀ n, (Text.ofNat n ++ rest).head?.all fun c => !isBlank c := by
    intro n
    obtain ⟨b, more, hcons⟩ := List.exists_cons_of_ne_nil (Text.ofNat_ne_nil n)
    have hb : isDigit b := Text.isDigit_of_mem_ofNat (hcons ▸ List.mem_cons_self)
    have hrange := toNat_of_isDigit hb
    simp only [hcons, List.cons_append, List.head?_cons, Option.all_some, isBlank, Bool.not_eq_true',
      Bool.or_eq_false_iff, beq_eq_false_iff_ne, ne_eq, ← UInt8.toNat_inj, UInt8.reduceToNat]
    omega
  cases x with
  | ofNat n => exact hdigit n
  | negSucc n => rfl

/-- More values end the value in front of them. -/
theorem endsConstant_moreValues (xs : List Int) {rest : Text} (hrest : rest.head?.all endsConstant) :
    ((moreValues xs).flatMap Lexeme.text ++ rest).head?.all endsConstant := by
  cases xs with
  | nil => exact hrest
  | cons x xs => rfl

/-- The values behind the first one are read back in every state, since a comma lets a sign belong to a
number. -/
theorem readsFrom_moreValues (xs : List Int) {rest : Text} (hrest : rest.head?.all endsConstant) (st : State) :
    ReadsFrom dialect st (moreValues xs) rest := by
  induction xs generalizing st with
  | nil => trivial
  | cons x xs ih =>
    have hblank : Reads dialect blank
        ((decimal x :: moreValues xs).flatMap Lexeme.text ++ rest) := by
      rw [List.flatMap_cons, List.append_assoc]
      exact reads_blank x _
    refine ⟨(reads_comma _).readsIn st, hblank.readsIn _, readsIn_decimal x ?_ ?_, ih _⟩
    · exact endsConstant_moreValues xs hrest
    · rfl

/-- The line is scanned to its lexemes. -/
theorem readsFrom_dataLexemes {d : DataDirective} (hd : d ∈ data) (x : Int) (xs : List Int) {rest : Text}
    (hrest : rest.head?.all endsConstant) : ReadsFrom dialect {} (dataLexemes d x xs) rest := by
  obtain ⟨hhead, htail, hregister, -⟩ := name_isDirective d hd
  have hend := endsConstant_moreValues xs hrest
  have hname : ∀ more : Text, (more.head?.all fun c => !isWordPart c) →
      Reads dialect ⟨.word, d.name⟩ more := by
    intro more hmore
    generalize d.name = name at *
    cases name with
    | nil => simp at hhead
    | cons b name =>
      simp only [List.head?_cons, Option.any_some, Bool.and_eq_true] at hhead
      have hword := Reads.word name hhead.1 hhead.2 (List.all_eq_true.1 htail) hmore
      rwa [Option.isSome_eq_false_iff.2 hregister] at hword
  unfold dataLexemes firstValue
  split_ifs with hx
  · -- The sign is scanned on its own, since the directive stands before it.
    refine ⟨(hname _ rfl).readsIn _, (Reads.blank rfl).readsIn _, readsIn_sign (.inl rfl) rfl _, ?_,
      readsFrom_moreValues xs hrest _⟩
    exact (reads_decimal (by omega) hend).readsIn _
  · have hblank : Reads dialect blank ((decimal x :: moreValues xs).flatMap Lexeme.text ++ rest) := by
      rw [List.flatMap_cons, List.append_assoc]
      exact reads_blank x _
    exact ⟨(hname _ rfl).readsIn _, hblank.readsIn _, (reads_decimal (by omega) hend).readsIn _,
      readsFrom_moreValues xs hrest _⟩

/-! ## The preprocessor leaves the line alone -/

/-- What holds of the parts of a line holds of all its lexemes. -/
theorem forall_dataLexemes {P : Lexeme → Prop} {d : DataDirective} (x : Int) (xs : List Int)
    (hname : P ⟨.word, d.name⟩) (hblank : P blank) (hcomma : P comma) (hminus : P ⟨.symbol, [0x2D]⟩)
    (hdecimal : ∀ x, P (decimal x)) : ∀ l ∈ dataLexemes d x xs, P l := by
  have hfirst : ∀ l ∈ firstValue x, P l := by
    unfold firstValue
    split_ifs
    · simpa using ⟨hblank, hminus, hdecimal (-x)⟩
    · simpa using ⟨hblank, hdecimal x⟩
  have hmore : ∀ l ∈ moreValues xs, P l := by
    intro l hl
    obtain ⟨y, -, hl⟩ := List.mem_flatMap.1 hl
    simp only [List.mem_cons, List.not_mem_nil, or_false] at hl
    rcases hl with rfl | rfl | rfl
    · exact hcomma
    · exact hblank
    · exact hdecimal y
  intro l hl
  rcases List.mem_cons.1 hl with rfl | hl
  · exact hname
  · exact (List.mem_append.1 hl).elim (hfirst l) (hmore l)

/-- An integer starts with a minus sign or a digit. -/
theorem exists_cons_ofInt (x : Int) :
    ∃ b more, Text.ofInt x = b :: more ∧ b.toNat < 0x40 ∧ 0x2D ≤ b.toNat ∧ b.toNat ≠ 0x2E := by
  cases x with
  | ofNat n =>
    obtain ⟨b, more, hcons⟩ := List.exists_cons_of_ne_nil (Text.ofNat_ne_nil n)
    have hb : isDigit b := Text.isDigit_of_mem_ofNat (hcons ▸ List.mem_cons_self)
    have hrange := toNat_of_isDigit hb
    exact ⟨b, more, hcons, by omega, by omega, by omega⟩
  | negSucc n => exact ⟨0x2D, Text.ofNat (n + 1), rfl, by decide, by decide, by decide⟩

theorem isPassive_decimal (x : Int) : isPassive (decimal x) := by
  obtain ⟨b, more, hcons, hlow, -, hdot⟩ := exists_cons_ofInt x
  have hascii : b < 0x80 := by
    rw [UInt8.lt_iff_toNat_lt]
    exact lt_trans hlow (by decide)
  -- A directive starts with a letter or a dot.
  have hheads : ∀ w ∈ ("import" : Text) :: Preprocess.directives,
      w.codePoints.head?.all fun c => CodePoint.fold c == 0x69 || CodePoint.fold c == 0x2E := by decide
  have hfalse : ∀ w ∈ ("import" : Text) :: Preprocess.directives, (Text.ofInt x).equalFold w = false := by
    intro w hw
    rw [hcons]
    refine Text.equalFold_cons_eq_false hascii ?_ more
    have hhead := hheads w hw
    cases hcodes : w.codePoints.head? with
    | none => rfl
    | some c =>
      rw [hcodes] at hhead
      have hc : CodePoint.fold c = 0x69 ∨ CodePoint.fold c = 0x2E := by simpa using hhead
      rw [Option.all_some, bne_iff_ne, CodePoint.fold_of_lt _ hlow]
      omega
  have hkind : (decimal x).kind ≠ .symbol := by
    rcases kind_decimal x with hkind | hkind <;> simp [hkind]
  have htext : (decimal x).text = Text.ofInt x := rfl
  simp only [isPassive, htext, hfalse _ List.mem_cons_self]
  simpa [hkind] using fun w hw => hfalse w (List.mem_cons_of_mem _ hw)

/-- No pass of the preprocessor acts on a lexeme of the line. -/
theorem isPassive_dataLexemes {d : DataDirective} (hd : d ∈ data) (x : Int) (xs : List Int) :
    ∀ l ∈ dataLexemes d x xs, isPassive l := by
  obtain ⟨-, -, -, hname, -⟩ := name_isDirective d hd
  exact forall_dataLexemes (P := fun l => isPassive l) x xs hname (by decide) (by decide) (by decide)
    isPassive_decimal

/-- The line closes no bracket and does not end before its end. -/
theorem unclosed_dataLexemes {d : DataDirective} (hd : d ∈ data) (x : Int) (xs : List Int) :
    ∀ l ∈ dataLexemes d x xs, l.text ≠ (")" : Text) ∧ l.kind ≠ .newline := by
  obtain ⟨-, -, -, -, hname, -⟩ := name_isDirective d hd
  have hword : d.name ≠ (")" : Text) := fun heq => hname (by simp [heq])
  refine forall_dataLexemes x xs ⟨hword, by simp⟩ (by decide) (by decide) (by decide) fun y => ⟨?_, ?_⟩
  · obtain ⟨b, more, hcons, -, hhigh, -⟩ := exists_cons_ofInt y
    have hbracket : (")" : Text) = [0x29] := by decide
    rw [show (decimal y).text = b :: more from hcons, hbracket]
    intro heq
    rw [(List.cons.inj heq).1] at hhigh
    exact absurd hhigh (by decide)
  · rcases kind_decimal y with hkind | hkind <;> simp [hkind]

/-- The end of a line. The last line of a file needs no newline. -/
def IsEnding (ends : List Lexeme) : Prop := ends = [] ∨ ends = [⟨.newline, [0x0A]⟩]

/-- What holds of a line and of a newline holds of the line with its end. -/
theorem forall_mem_ending {P : Lexeme → Prop} {ls ends : List Lexeme} (hends : IsEnding ends)
    (hls : ∀ l ∈ ls, P l) (hnewline : P ⟨.newline, [0x0A]⟩) : ∀ l ∈ ls ++ ends, P l := by
  intro l hl
  rcases List.mem_append.1 hl with hl | hl
  · exact hls l hl
  · rcases hends with rfl | rfl
    · cases hl
    · rwa [List.mem_singleton.1 hl]

/-- The only word of the line is its directive. -/
theorem lookup_defines_of_mem {a : Assembler} {d : DataDirective} (hd : d ∈ data)
    (hpredefined : a.predefined.lookup d.name = none) (x : Int) (xs : List Int) :
    ∀ l ∈ dataLexemes d x xs, l.kind = .word → a.defines.lookup l.text = none := by
  obtain ⟨-, -, -, -, hname, -⟩ := name_isDirective d hd
  refine forall_dataLexemes x xs (fun _ => ?_) (by simp [blank]) (by simp [comma]) (by simp) fun y hy => ?_
  · -- The settings of the assembler have other names.
    rw [Assembler.defines, List.lookup_append, hpredefined, Option.none_or, List.lookup_eq_none_iff]
    intro p hp
    rw [bne_iff_ne]
    rintro heq
    simp only [List.mem_cons, List.not_mem_nil, or_false] at hp
    rcases hp with rfl | rfl
    · have htext : d.name = ("ORIGIN" : Text) := heq
      exact hname (by simp [htext])
    · have htext : d.name = ("ADDRESS_WIDTH" : Text) := heq
      exact hname (by simp [htext])
  · rcases kind_decimal y with hkind | hkind <;> simp [hkind] at hy

/-- The lexemes of the line pass through the preprocessor unchanged. -/
theorem preprocessed_dataLexemes {a : Assembler} (harch : a.arch = architecture) {d : DataDirective}
    (hd : d ∈ data) (hpredefined : a.predefined.lookup d.name = none) (name : Text) (x : Int)
    (xs : List Int) {ends : List Lexeme} (hends : IsEnding ends) :
    ∃ tokens : List Token, tokens.map Token.lexeme = dataLexemes d x xs ++ ends ∧
      a.preprocessed name ((dataLexemes d x xs ++ ends).flatMap Lexeme.text) =
        { file := name, output := { tokens, events := [.finished name tokens.length 0 0] } } := by
  have hreads : ReadsFrom dialect {} (dataLexemes d x xs ++ ends) [] := by
    rcases hends with rfl | rfl
    · rw [List.append_nil]
      exact readsFrom_dataLexemes hd x xs rfl
    · refine readsFrom_append (readsFrom_dataLexemes hd x xs rfl) ?_
      exact ⟨(Reads.newline _).readsIn _, trivial⟩
  have hpassive := forall_mem_ending (P := fun l => isPassive l) hends (isPassive_dataLexemes hd x xs)
    (by decide)
  have hdefines := forall_mem_ending (P := fun l => l.kind = .word → a.defines.lookup l.text = none) hends
    (lookup_defines_of_mem hd hpredefined x xs) (by simp)
  have hunclosed := forall_mem_ending (P := fun l => l.text ≠ (")" : Text)) hends
    (fun l hl => (unclosed_dataLexemes hd x xs l hl).1) (by decide)
  refine preprocessed_of_readsFrom harch name hreads hpassive hdefines fun tokens htokens => ?_
  exact Token.reduce_of_unclosed dialect fun t ht =>
    hunclosed t.lexeme (htokens ▸ List.mem_map_of_mem ht)

end Mos6502

end EightBit
