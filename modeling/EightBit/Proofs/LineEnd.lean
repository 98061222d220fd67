import Mathlib
import EightBit.Proofs.Constant

/-!
# Scanning to the end of a line

No lexeme reaches from one line into the next one, or into the blanks at the end of a line. A line is therefore
scanned as if it stood alone, and the blanks before its end change nothing but the blank that they make.

* `Scan.IsLineEnd`: what follows a line: blanks, a newline and anything else.
* `Scan.next?_append`: the next lexeme of a line does not depend on what follows.
* `Scan.lexemesFrom_append`: the lexemes of a line and of what follows.
-/

namespace EightBit

namespace Scan

/-- Blanks, a newline and any text. -/
def IsLineEnd (v : Text) : Prop := ∃ blanks rest : Text, (∀ b ∈ blanks, isBlank b) ∧ v = blanks ++ 0x0A :: rest

/-- Whether a byte may stand where a line ends. -/
def endsLine (b : UInt8) : Bool := isBlank b || b == 0x0A

/-- A dialect in whose marks and symbols no blank and no newline occurs. -/
structure IsUnbroken (d : Dialect) : Prop where
  marks : ∀ p ∈ d.binPrefixes ++ d.hexPrefixes, ∀ c ∈ p.codePoints, ∀ b : UInt8, endsLine b →
    CodePoint.fold b.toNat ≠ CodePoint.fold c
  symbols : ∀ s ∈ d.multiSymbols, ∀ b ∈ s, endsLine b = false

/-- A dialect in whose marks and symbols a byte does not occur. -/
structure Avoids (d : Dialect) (b : UInt8) : Prop where
  marks : ∀ p ∈ d.binPrefixes ++ d.hexPrefixes, ∀ c ∈ p.codePoints, CodePoint.fold b.toNat ≠ CodePoint.fold c
  symbols : ∀ s ∈ d.multiSymbols, b ∉ s

theorem IsUnbroken.avoids {d : Dialect} (hd : IsUnbroken d) {b : UInt8} (hb : endsLine b) : Avoids d b where
  marks p hp c hc := hd.marks p hp c hc b hb
  symbols s hs hmem := by simp [hd.symbols s hs b hmem] at hb

theorem endsLine_cases {b : UInt8} (h : endsLine b) :
    b ∈ ([0x20, 0x09, 0x0D, 0x0C, 0x0B, 0x0A] : List UInt8) := by
  simpa [endsLine, isBlank, or_assoc] using h

/-- What a byte that ends a line is not: part of a number, a word, a literal or a character of several bytes. -/
structure IsOutside (b : UInt8) : Prop where
  ascii : b < 0x80
  digit : isDigit b = false
  binDigit : isBinDigit b = false
  hexDigit : isHexDigit b = false
  identifier : isIdentifier b = false
  wordStart : isWordStart b = false
  wordPart : isWordPart b = false
  quote : b ≠ 0x27
  doubleQuote : b ≠ 0x22
  backslash : b ≠ 0x5C
  continuation : Text.isContinuation b = false

theorem isOutside_of_endsLine {b : UInt8} (h : endsLine b) : IsOutside b := by
  have hcases := endsLine_cases h
  simp only [List.mem_cons, List.not_mem_nil, or_false] at hcases
  rcases hcases with rfl | rfl | rfl | rfl | rfl | rfl <;> constructor <;> decide

theorem isOutside_of_isBlank {b : UInt8} (h : isBlank b) : IsOutside b :=
  isOutside_of_endsLine (by simp [endsLine, h])

/-! ## Lengths -/

theorem le_of_run? {start part : UInt8 → Bool} {t : Text} {n : Nat} (h : run? start part t = some n) :
    n ≤ t.length := by
  cases t with
  | nil => cases h
  | cons b t =>
    rw [run?] at h
    split_ifs at h
    cases h
    have hle := ( List.takeWhile_prefix part (l := t)).length_le
    rw [List.length_cons]
    omega

theorem le_of_digits? {isDigit : UInt8 → Bool} {t : Text} {n : Nat} (h : digits? isDigit t = some n) :
    n ≤ t.length :=
  le_of_run? h

theorem le_of_spelled? {codes : List Nat} {t : Text} {n : Nat} (h : spelled? codes t = some n) : n ≤ t.length := by
  induction codes generalizing t n with
  | nil =>
    rw [Mos6502.spelled?_nil] at h
    cases h
    exact Nat.zero_le _
  | cons c codes ih =>
    cases t with
    | nil => cases h
    | cons b t =>
      rw [spelled?] at h
      split_ifs at h
      obtain ⟨m, hm, rfl⟩ := Option.map_eq_some_iff.1 h
      have hle := ih hm
      have hwidth := (Text.width_firstRune_bounds b t).2
      rw [List.length_drop, List.length_cons] at hle
      rw [List.length_cons]
      omega

theorem le_of_radix? {introductions : List Text} {isDigit : UInt8 → Bool} {t : Text} {n : Nat}
    (h : radix? introductions isDigit t = some n) : n ≤ t.length := by
  obtain ⟨p, -, hp⟩ := List.exists_of_findSome?_eq_some h
  obtain ⟨m, hm, hdigits⟩ := Option.bind_eq_some_iff.1 hp
  obtain ⟨k, hk, rfl⟩ := Option.map_eq_some_iff.1 hdigits
  have hspelled := le_of_spelled? hm
  have hrun := le_of_run? hk
  rw [List.length_drop] at hrun
  omega

theorem le_of_signedDigits? {t : Text} {n : Nat} (h : signedDigits? t = some n) : n ≤ t.length := by
  cases t with
  | nil => cases h
  | cons b t =>
    rw [signedDigits?] at h
    split_ifs at h
    obtain ⟨m, hm, rfl⟩ := Option.map_eq_some_iff.1 h
    have hle := le_of_run? hm
    rw [List.length_cons]
    omega

theorem takeWhile_append_of_head? {p : UInt8 → Bool} {v : Text} (hp : ∀ b ∈ v.head?, p b = false) (body : Text) :
    (body ++ v).takeWhile p = body.takeWhile p := by
  induction body with
  | nil =>
    cases v with
    | nil => rfl
    | cons b v => simp [hp b rfl]
  | cons c body ih => rw [List.cons_append, List.takeWhile_cons, List.takeWhile_cons, ih]

section Ends

variable {v : Text} (hv : IsLineEnd v)

include hv

theorem IsLineEnd.exists_cons : ∃ b w, v = b :: w ∧ endsLine b := by
  obtain ⟨blanks, rest, hblanks, rfl⟩ := hv
  cases blanks with
  | nil => exact ⟨0x0A, rest, rfl, rfl⟩
  | cons b blanks => exact ⟨b, blanks ++ 0x0A :: rest, rfl, by simp [endsLine, hblanks b List.mem_cons_self]⟩

/-- Behind a blank that ends a line stands the end of the line again. -/
theorem IsLineEnd.cases : (∃ rest, v = 0x0A :: rest) ∨ ∃ b w, v = b :: w ∧ isBlank b ∧ IsLineEnd w := by
  obtain ⟨blanks, rest, hblanks, rfl⟩ := hv
  cases blanks with
  | nil => exact .inl ⟨rest, rfl⟩
  | cons b blanks =>
    exact .inr ⟨b, _, rfl, hblanks b List.mem_cons_self, blanks, rest,
      fun c hc => hblanks c (List.mem_cons_of_mem b hc), rfl⟩

/-- A run of bytes that do not end a line ends with the line. -/
theorem takeWhile_append_lineEnd {p : UInt8 → Bool} (hp : ∀ b, endsLine b → p b = false) (body : Text) :
    (body ++ v).takeWhile p = body.takeWhile p := by
  obtain ⟨b, w, rfl, hb⟩ := hv.exists_cons
  exact takeWhile_append_of_head? (by simp [hp b hb]) body

/-! ## Numbers and words -/

theorem run?_append {start part : UInt8 → Bool} (hstart : ∀ b, endsLine b → start b = false)
    (hpart : ∀ b, endsLine b → part b = false) (body : Text) : run? start part (body ++ v) = run? start part body := by
  cases body with
  | nil =>
    obtain ⟨b, w, rfl, hb⟩ := hv.exists_cons
    simp [run?, hstart b hb]
  | cons c body => rw [List.cons_append, run?, run?, takeWhile_append_lineEnd hv hpart]

theorem digits?_append {isDigit : UInt8 → Bool} (hdigit : ∀ b, endsLine b → isDigit b = false) (body : Text) :
    digits? isDigit (body ++ v) = digits? isDigit body := by
  refine run?_append hv hdigit (fun b hb => ?_) body
  have hscore : b ≠ 0x5F := by
    rintro rfl
    exact absurd hb (by decide)
  simp [hdigit b hb, hscore]

theorem firstRune_append_lineEnd (b : UInt8) (body : Text) :
    Text.firstRune b (body ++ v) = Text.firstRune b body := by
  refine Text.firstRune_append b body ?_
  obtain ⟨c, w, rfl, hc⟩ := hv.exists_cons
  simp [(isOutside_of_endsLine hc).continuation]

theorem spelled?_append {codes : List Nat}
    (hcodes : ∀ c ∈ codes, ∀ b ∈ v.head?, CodePoint.fold b.toNat ≠ CodePoint.fold c) (body : Text) :
    spelled? codes (body ++ v) = spelled? codes body := by
  induction codes generalizing body with
  | nil => rw [Mos6502.spelled?_nil, Mos6502.spelled?_nil]
  | cons c codes ih =>
    have hrest := ih fun k hk => hcodes k (List.mem_cons_of_mem c hk)
    cases body with
    | nil =>
      obtain ⟨b, w, rfl, hb⟩ := hv.exists_cons
      have hne := hcodes c List.mem_cons_self b rfl
      simp [spelled?, Text.firstRune, (isOutside_of_endsLine hb).ascii, hne]
    | cons b body =>
      have hle := (Text.width_firstRune_bounds b body).2
      rw [List.cons_append, spelled?, spelled?, firstRune_append_lineEnd hv, ← List.cons_append,
        List.drop_append_of_le_length hle, hrest]

theorem radix?_append {introductions : List Text}
    (hmarks : ∀ p ∈ introductions, ∀ c ∈ p.codePoints, ∀ b ∈ v.head?, CodePoint.fold b.toNat ≠ CodePoint.fold c)
    {isDigit : UInt8 → Bool} (hdigit : ∀ b, endsLine b → isDigit b = false) (body : Text) :
    radix? introductions isDigit (body ++ v) = radix? introductions isDigit body := by
  induction introductions with
  | nil => rfl
  | cons p introductions ih =>
    have hfirst : ((spelled? p.codePoints (body ++ v)).bind fun n =>
        (digits? isDigit ((body ++ v).drop n)).map (n + ·)) =
        (spelled? p.codePoints body).bind fun n => (digits? isDigit (body.drop n)).map (n + ·) := by
      rw [spelled?_append hv (hmarks p List.mem_cons_self)]
      refine Option.bind_congr fun n hn => ?_
      rw [List.drop_append_of_le_length (le_of_spelled? hn), digits?_append hv hdigit]
    have hrest := ih fun q hq => hmarks q (List.mem_cons_of_mem p hq)
    rw [radix?, radix?] at hrest ⊢
    rw [List.findSome?_cons, List.findSome?_cons, hfirst, hrest]

theorem apart_append_lineEnd {body : Text} {length : Option Nat} (hle : ∀ n, length = some n → n ≤ body.length) :
    apart (body ++ v) length = apart body length := by
  cases length with
  | none => rfl
  | some n =>
    obtain ⟨b, w, rfl, hb⟩ := hv.exists_cons
    have hidentifier : isIdentifier b = false := (isOutside_of_endsLine hb).identifier
    rw [apart, apart, Option.filter_some, Option.filter_some, List.drop_append_of_le_length (hle n rfl)]
    cases body.drop n <;> simp [hidentifier]

theorem signedDigits?_append (body : Text) : signedDigits? (body ++ v) = signedDigits? body := by
  cases body with
  | nil =>
    obtain ⟨b, w, rfl, hb⟩ := hv.exists_cons
    have hsign : ¬(b = 0x2D ∨ b = 0x2B) := by
      rintro (rfl | rfl) <;> exact absurd hb (by decide)
    rw [List.nil_append, signedDigits?, if_neg hsign]
    rfl
  | cons b body =>
    rw [List.cons_append, signedDigits?, signedDigits?, digits?_append hv fun b hb => (isOutside_of_endsLine hb).digit]

/-! ## Literals -/

omit hv in
theorem literalChar?_plain {quote b : UInt8} (hb : b ≠ 0x5C) (rest : Text) :
    literalChar? quote (b :: rest) =
      if b = quote ∨ b = 0x0A then none else some (Text.firstRune b rest).width := by
  simp [literalChar?, hb]

omit hv in
theorem literalChar?_escaped (quote c : UInt8) (rest : Text) :
    literalChar? quote (0x5C :: c :: rest) =
      if c = 0x0A then none else some (1 + (Text.firstRune c rest).width) :=
  rfl

/-- A character of a literal is read within the line, unless it stands behind a backslash that ends the line. -/
theorem literalChar?_append (quote b : UInt8) {body : Text} (hescape : b = 0x5C → body ≠ []) :
    literalChar? quote (b :: body ++ v) = literalChar? quote (b :: body) := by
  by_cases hb : b = 0x5C
  · subst hb
    cases body with
    | nil => exact absurd rfl (hescape rfl)
    | cons c body =>
      rw [List.cons_append, List.cons_append, literalChar?_escaped, literalChar?_escaped, firstRune_append_lineEnd hv]
  · rw [List.cons_append, literalChar?_plain hb, literalChar?_plain hb, firstRune_append_lineEnd hv]

omit hv in
theorem le_of_literalChar? {quote : UInt8} {t : Text} {n : Nat} (h : literalChar? quote t = some n) :
    1 ≤ n ∧ n ≤ t.length := by
  cases t with
  | nil => cases h
  | cons b t =>
    by_cases hb : b = 0x5C
    · subst hb
      cases t with
      | nil => cases h
      | cons c t =>
        rw [literalChar?_escaped] at h
        split_ifs at h
        cases h
        have hwidth := Text.width_firstRune_bounds c t
        simp only [List.length_cons]
        omega
    · rw [literalChar?_plain hb] at h
      split_ifs at h
      cases h
      have hwidth := Text.width_firstRune_bounds b t
      rw [List.length_cons]
      omega

/-- What a literal takes from the end of a line is one blank, behind which the line ends again. -/
theorem literalChar?_lineEnd {quote : UInt8} {n : Nat} (h : literalChar? quote v = some n) :
    n = 1 ∧ IsLineEnd (v.drop 1) := by
  rcases hv.cases with ⟨rest, rfl⟩ | ⟨b, w, rfl, hb, hw⟩
  · simp [literalChar?] at h
  · have hends := isOutside_of_isBlank hb
    rw [literalChar?_plain hends.backslash] at h
    split_ifs at h
    cases h
    exact ⟨by simp [Text.firstRune, hends.ascii], hw⟩

/-- A backslash at the end of a line takes one blank, or is followed by the newline. -/
theorem literalChar?_escaped_lineEnd {quote : UInt8} {n : Nat} (h : literalChar? quote (0x5C :: v) = some n) :
    n = 2 ∧ IsLineEnd (v.drop 1) := by
  rcases hv.cases with ⟨rest, rfl⟩ | ⟨b, w, rfl, hb, hw⟩
  · simp [literalChar?_escaped] at h
  · have hends := isOutside_of_isBlank hb
    rw [literalChar?_escaped] at h
    split_ifs at h
    cases h
    exact ⟨by simp [Text.firstRune, hends.ascii], hw⟩

/-- No quote stands at the end of a line. -/
theorem head?_ne_quote : v.head? ≠ some 0x27 ∧ v.head? ≠ some 0x22 := by
  obtain ⟨b, w, rfl, hb⟩ := hv.exists_cons
  simp [(isOutside_of_endsLine hb).quote, (isOutside_of_endsLine hb).doubleQuote]

omit hv in
theorem charLiteral?_cons (b : UInt8) (rest : Text) :
    charLiteral? (b :: rest) = if b = 0x27 then
      (literalChar? 0x27 rest).bind fun n => if (rest.drop n).head? = some 0x27 then some (n + 2) else none
    else none := by
  unfold charLiteral?
  split <;> simp_all

/-- A character literal is closed in its line. -/
theorem charLiteral?_append (body : Text) : charLiteral? (body ++ v) = charLiteral? body := by
  cases body with
  | nil =>
    obtain ⟨b, w, rfl, hb⟩ := hv.exists_cons
    rw [List.nil_append, charLiteral?_cons, if_neg (isOutside_of_endsLine hb).quote]
    rfl
  | cons b body =>
    rw [List.cons_append, charLiteral?_cons, charLiteral?_cons]
    split_ifs with hb
    · by_cases hlonely : body = [] ∨ body = [0x5C]
      · -- The character would stand behind the end of the line, and so would its closing quote.
        have hright : literalChar? 0x27 body = none := by
          rcases hlonely with rfl | rfl <;> rfl
        rw [hright, Option.bind_none, Option.bind_eq_none_iff]
        intro n hn
        have hend : IsLineEnd ((body ++ v).drop n) := by
          rcases hlonely with rfl | rfl
          · obtain ⟨rfl, hw⟩ := literalChar?_lineEnd hv hn
            exact hw
          · obtain ⟨rfl, hw⟩ := literalChar?_escaped_lineEnd hv hn
            exact hw
        rw [if_neg (head?_ne_quote hend).1]
      · cases body with
        | nil => simp at hlonely
        | cons c body =>
          rw [literalChar?_append hv 0x27 c (by rintro rfl rfl; simp at hlonely)]
          refine Option.bind_congr fun n hn => ?_
          rw [List.drop_append_of_le_length (le_of_literalChar? hn).2]
          cases (c :: body).drop n with
          | nil => rw [List.nil_append, if_neg (head?_ne_quote hv).1, if_neg (by simp)]
          | cons e more => rfl
    · rfl

theorem stringTail?_lineEnd : stringTail? 0 v = none := by
  obtain ⟨blanks, rest, hblanks, rfl⟩ := hv
  induction blanks with
  | nil => rfl
  | cons b blanks ih =>
    have hb := hblanks b List.mem_cons_self
    have hrest := ih fun c hc => hblanks c (List.mem_cons_of_mem b hc)
    have hend : IsLineEnd (b :: blanks ++ 0x0A :: rest) := ⟨b :: blanks, rest, hblanks, rfl⟩
    have hquote : b ≠ 0x22 := (isOutside_of_isBlank hb).doubleQuote
    rw [List.cons_append] at hend ⊢
    rw [stringTail?, if_neg hquote, Option.bind_eq_none_iff]
    intro n hn
    obtain ⟨rfl, -⟩ := literalChar?_lineEnd hend hn
    rw [Nat.sub_self, hrest]
    rfl

/-- A string is closed in its line. -/
theorem stringTail?_append {skip : Nat} {body : Text} (hskip : skip ≤ body.length) :
    stringTail? skip (body ++ v) = stringTail? skip body := by
  induction body generalizing skip with
  | nil =>
    obtain rfl : skip = 0 := Nat.le_zero.1 hskip
    exact stringTail?_lineEnd hv
  | cons b body ih =>
    cases skip with
    | succ skip =>
      rw [List.cons_append, stringTail?, stringTail?, ih (Nat.le_of_succ_le_succ hskip)]
    | zero =>
      by_cases hlonely : b = 0x5C ∧ body = []
      · obtain ⟨rfl, rfl⟩ := hlonely
        rw [List.cons_append, stringTail?, if_neg (by decide), List.nil_append]
        rw [show stringTail? 0 [0x5C] = none from rfl, Option.bind_eq_none_iff]
        intro n hn
        obtain ⟨rfl, hw⟩ := literalChar?_escaped_lineEnd hv hn
        obtain ⟨b, w, rfl, -⟩ := hv.exists_cons
        have hnone : stringTail? 0 w = none := stringTail?_lineEnd hw
        rw [stringTail?, hnone]
        rfl
      · have hchar : literalChar? 0x22 (b :: body ++ v) = literalChar? 0x22 (b :: body) :=
          literalChar?_append hv 0x22 b fun hb hbody => hlonely ⟨hb, hbody⟩
        rw [List.cons_append] at hchar ⊢
        rw [stringTail?, stringTail?, hchar]
        split_ifs
        · rfl
        · refine Option.bind_congr fun n hn => ?_
          have hle := (le_of_literalChar? hn).2
          rw [List.length_cons] at hle
          rw [ih (by omega)]

omit hv in
theorem stringLiteral?_cons (b : UInt8) (rest : Text) :
    stringLiteral? (b :: rest) = if b = 0x22 then (stringTail? 0 rest).map (1 + ·) else none := by
  unfold stringLiteral?
  split <;> simp_all

theorem stringLiteral?_append (body : Text) : stringLiteral? (body ++ v) = stringLiteral? body := by
  cases body with
  | nil =>
    obtain ⟨b, w, rfl, hb⟩ := hv.exists_cons
    rw [List.nil_append, stringLiteral?_cons, if_neg (isOutside_of_endsLine hb).doubleQuote]
    rfl
  | cons b body =>
    rw [List.cons_append, stringLiteral?_cons, stringLiteral?_cons, stringTail?_append hv (Nat.zero_le _)]

omit hv in
theorem le_of_charLiteral? {t : Text} {n : Nat} (h : charLiteral? t = some n) : n ≤ t.length := by
  cases t with
  | nil => cases h
  | cons b t =>
    rw [charLiteral?_cons] at h
    split_ifs at h
    obtain ⟨m, hm, hquote⟩ := Option.bind_eq_some_iff.1 h
    split_ifs at hquote with hhead
    cases hquote
    -- The closing quote stands behind the character.
    have hlt : m < t.length := by
      by_contra hge
      rw [List.drop_eq_nil_of_le (by omega)] at hhead
      cases hhead
    rw [List.length_cons]
    omega

omit hv in
theorem le_of_stringTail? {skip : Nat} {t : Text} {n : Nat} (h : stringTail? skip t = some n) : n ≤ t.length := by
  induction t generalizing skip n with
  | nil => cases skip <;> cases h
  | cons b t ih =>
    rw [List.length_cons]
    cases skip with
    | succ skip =>
      obtain ⟨m, hm, rfl⟩ := Option.map_eq_some_iff.1 h
      have hle := ih hm
      omega
    | zero =>
      rw [stringTail?] at h
      split_ifs at h
      · cases h
        omega
      · obtain ⟨k, -, hmore⟩ := Option.bind_eq_some_iff.1 h
        obtain ⟨m, hm, rfl⟩ := Option.map_eq_some_iff.1 hmore
        have hle := ih hm
        omega

/-! ## Symbols -/

theorem isPrefixOf_append {s : Text} (hs : ∀ b ∈ v.head?, b ∉ s) (body : Text) :
    s.isPrefixOf (body ++ v) = s.isPrefixOf body := by
  induction s generalizing body with
  | nil => rfl
  | cons c s ih =>
    cases body with
    | nil =>
      obtain ⟨b, w, rfl, hb⟩ := hv.exists_cons
      have hne : c ≠ b := by
        rintro rfl
        exact hs c rfl List.mem_cons_self
      change (c == b && s.isPrefixOf w) = false
      rw [beq_false_of_ne hne, Bool.false_and]
    | cons b body =>
      rw [List.cons_append, List.isPrefixOf, List.isPrefixOf,
        ih fun e he hmem => hs e he (List.mem_cons_of_mem c hmem)]

variable {d : Dialect} (hd : ∀ b ∈ v.head?, Avoids d b)

include hd

theorem symbolLength_append (b : UInt8) (body : Text) :
    symbolLength d (b :: body ++ v) = symbolLength d (b :: body) := by
  have hlong : (d.multiSymbols.find? fun s => s.isPrefixOf (b :: body ++ v)) =
      d.multiSymbols.find? fun s => s.isPrefixOf (b :: body) := by
    have hsymbols : ∀ s ∈ d.multiSymbols, ∀ b ∈ v.head?, b ∉ s := fun s hs b hb => (hd b hb).symbols s hs
    -- By induction on the symbols, each of which is a prefix of both or of none.
    generalize d.multiSymbols = symbols at hsymbols ⊢
    induction symbols with
    | nil => rfl
    | cons s symbols ih =>
      rw [List.find?_cons, List.find?_cons, isPrefixOf_append hv (hsymbols s List.mem_cons_self),
        ih fun t ht => hsymbols t (List.mem_cons_of_mem s ht)]
  unfold symbolLength
  rw [hlong]
  rfl

omit hv hd in
theorem symbolLength_le (t : Text) : symbolLength d t ≤ t.length := by
  unfold symbolLength
  split
  next s hs =>
    have hprefix : s.isPrefixOf t := List.find?_some (p := fun s : Text => s.isPrefixOf t) hs
    exact (List.isPrefixOf_iff_prefix.1 hprefix).length_le
  next =>
    split
    next b rest =>
      split_ifs
      · simp
      · exact Nat.zero_le _
    next => exact Nat.zero_le _

/-! ## The next lexeme -/

/-- Whether a text has no newline and does not end in a blank. -/
structure IsBody (body : Text) : Prop where
  newline : 0x0A ∉ body
  last : ∀ b ∈ body.getLast?, isBlank b = false

/-- No blanks go on from one text into the next. -/
def IsApart (body v : Text) : Prop := (∀ b ∈ body.getLast?, isBlank b = false) ∨ ∀ b ∈ v.head?, isBlank b = false

omit hv hd in
theorem IsApart.tail {b : UInt8} {body : Text} (h : IsApart (b :: body) v) : IsApart body v := by
  refine h.imp_left fun hlast => ?_
  cases body with
  | nil => simp
  | cons c body => simpa using hlast

omit hv hd in
theorem takeWhile_append_of_exists {p : UInt8 → Bool} {body : Text} (h : ∃ c ∈ body, p c = false) :
    (body ++ v).takeWhile p = body.takeWhile p := by
  induction body with
  | nil => simp at h
  | cons c body ih =>
    rw [List.cons_append, List.takeWhile_cons, List.takeWhile_cons]
    split_ifs with hc
    · obtain ⟨e, he, hpe⟩ := h
      rcases List.mem_cons.1 he with rfl | he
      · rw [hc] at hpe
        cases hpe
      · rw [ih ⟨e, he, hpe⟩]
    · rfl

omit hv hd in
/-- Blanks end with the text in which they stand. -/
theorem run?_isBlank_append {b : UInt8} {body : Text} (hbody : IsApart (b :: body) v) :
    run? isBlank isBlank (b :: body ++ v) = run? isBlank isBlank (b :: body) := by
  rw [List.cons_append, run?, run?]
  split_ifs with hb
  · rcases hbody with hlast | hhead
    · have hother : ∃ c ∈ body, isBlank c = false := by
        cases body with
        | nil => simp [hb] at hlast
        | cons c body =>
          refine ⟨(c :: body).getLast (by simp), List.getLast_mem _, hlast _ ?_⟩
          rw [List.getLast?_eq_some_getLast (by simp)]
          simp
      rw [takeWhile_append_of_exists hother]
    · rw [takeWhile_append_of_head? hhead]
  · rfl

theorem rule?_append (st : State) {b : UInt8} {body : Text} (hbody : IsApart (b :: body) v) :
    rule? d st (b :: body ++ v) = rule? d st (b :: body) := by
  have hbin := radix?_append hv (fun p hp c hc b hb => (hd b hb).marks p (List.mem_append_left _ hp) c hc)
    (fun b hb => (isOutside_of_endsLine hb).binDigit) (b :: body)
  have hhex := radix?_append hv (fun p hp c hc b hb => (hd b hb).marks p (List.mem_append_right _ hp) c hc)
    (fun b hb => (isOutside_of_endsLine hb).hexDigit) (b :: body)
  have hdigits := digits?_append hv (fun b hb => (isOutside_of_endsLine hb).digit) (b :: body)
  have hword : run? isWordStart isWordPart (b :: body ++ v) = run? isWordStart isWordPart (b :: body) :=
    run?_append hv (fun b hb => (isOutside_of_endsLine hb).wordStart)
      (fun b hb => (isOutside_of_endsLine hb).wordPart) (b :: body)
  have hnewline : newline? (b :: body ++ v) = newline? (b :: body) := rfl
  -- Rule by rule; that a number is not run into a word is seen at its end, which is in the line.
  rw [rule?, rule?, run?_isBlank_append hbody, hnewline, hbin, hhex, hdigits, hword, signedDigits?_append hv,
    charLiteral?_append hv, stringLiteral?_append hv, apart_append_lineEnd hv fun n => le_of_radix?,
    apart_append_lineEnd hv fun n => le_of_radix?, apart_append_lineEnd hv fun n => le_of_signedDigits?,
    apart_append_lineEnd hv fun n => le_of_digits?]

omit hv hd in
/-- Every rule with the kind of its lexemes. Numbers must not run into a word. -/
theorem rule?_eq_some {st : State} {t : Text} {k : TokenKind} {n : Nat} (h : rule? d st t = some (k, n)) :
    k = .whitespace ∧ run? isBlank isBlank t = some n ∨ k = .newline ∧ newline? t = some n ∨
      k = .bin ∧ apart t (radix? d.binPrefixes isBinDigit t) = some n ∨
      k = .hex ∧ apart t (radix? d.hexPrefixes isHexDigit t) = some n ∨
      k = .dec ∧ apart t (signedDigits? t) = some n ∨ k = .udec ∧ apart t (digits? isDigit t) = some n ∨
      k = .char ∧ charLiteral? t = some n ∨ k = .string ∧ stringLiteral? t = some n ∨
      k = .word ∧ run? isWordStart isWordPart t = some n := by
  have hor : ∀ {a b : Option (TokenKind × Nat)}, (a <|> b) = some (k, n) → a = some (k, n) ∨ b = some (k, n) := by
    intro a b hab
    cases a with
    | none => exact .inr hab
    | some x => exact .inl hab
  have hmap : ∀ {kind : TokenKind} {x : Option Nat},
      x.map (fun n => (kind, n)) = some (k, n) → k = kind ∧ x = some n := by
    intro kind x hx
    obtain ⟨m, hm, heq⟩ := Option.map_eq_some_iff.1 hx
    cases heq
    exact ⟨rfl, hm⟩
  rw [rule?] at h
  rcases hor h with h | h
  · exact .inl (hmap h)
  refine .inr ?_
  rcases hor h with h | h
  · exact .inl (hmap h)
  refine .inr ?_
  rcases hor h with h | h
  · exact .inl (hmap h)
  refine .inr ?_
  rcases hor h with h | h
  · exact .inl (hmap h)
  refine .inr ?_
  rcases hor h with h | h
  · refine .inl ?_
    split_ifs at h
    · exact hmap h
    · cases (hmap h).2
  refine .inr ?_
  rcases hor h with h | h
  · exact .inl (hmap h)
  refine .inr ?_
  rcases hor h with h | h
  · exact .inl (hmap h)
  refine .inr ?_
  rcases hor h with h | h
  · exact .inl (hmap h)
  · exact .inr (hmap h)

omit hv hd in
theorem eq_some_of_apart {t : Text} {length : Option Nat} {n : Nat} (h : apart t length = some n) : length = some n :=
  (Option.filter_eq_some_iff.1 h).1

omit hv hd in
theorem rule?_cases {st : State} {t : Text} {k : TokenKind} {n : Nat} (h : rule? d st t = some (k, n)) :
    k = .whitespace ∧ run? isBlank isBlank t = some n ∨ k = .newline ∧ newline? t = some n ∨
      k = .bin ∧ radix? d.binPrefixes isBinDigit t = some n ∨ k = .hex ∧ radix? d.hexPrefixes isHexDigit t = some n ∨
      k = .dec ∧ signedDigits? t = some n ∨ k = .udec ∧ digits? isDigit t = some n ∨
      k = .char ∧ charLiteral? t = some n ∨ k = .string ∧ stringLiteral? t = some n ∨
      k = .word ∧ run? isWordStart isWordPart t = some n :=
  (rule?_eq_some h).imp_right <| Or.imp_right <| Or.imp (And.imp_right eq_some_of_apart) <|
    Or.imp (And.imp_right eq_some_of_apart) <| Or.imp (And.imp_right eq_some_of_apart) <|
      Or.imp_left (And.imp_right eq_some_of_apart)

omit hv hd in
theorem newline?_eq_some {t : Text} {n : Nat} (h : newline? t = some n) : n = 1 ∧ ∃ rest, t = 0x0A :: rest := by
  unfold newline? at h
  split_ifs at h with hhead
  cases h
  cases t with
  | nil => cases hhead
  | cons b t =>
    cases hhead
    exact ⟨rfl, t, rfl⟩

omit hv hd in
theorem le_of_rule? {st : State} {t : Text} {k : TokenKind} {n : Nat} (h : rule? d st t = some (k, n)) :
    n ≤ t.length := by
  rcases rule?_cases h with ⟨-, h⟩ | ⟨-, h⟩ | ⟨-, h⟩ | ⟨-, h⟩ | ⟨-, h⟩ | ⟨-, h⟩ | ⟨-, h⟩ | ⟨-, h⟩ | ⟨-, h⟩
  · exact le_of_run? h
  · obtain ⟨rfl, rest, rfl⟩ := newline?_eq_some h
    simp
  · exact le_of_radix? h
  · exact le_of_radix? h
  · exact le_of_signedDigits? h
  · exact le_of_digits? h
  · exact le_of_charLiteral? h
  · cases t with
    | nil => cases h
    | cons b t =>
      rw [stringLiteral?_cons] at h
      split_ifs at h
      obtain ⟨m, hm, rfl⟩ := Option.map_eq_some_iff.1 h
      have hle := le_of_stringTail? hm
      rw [List.length_cons]
      omega
  · exact le_of_run? h

/-- The next lexeme of a line does not depend on what follows the line. -/
theorem next?_append (st : State) {b : UInt8} {body : Text} (hbody : IsApart (b :: body) v) :
    next? d st (b :: body ++ v) = next? d st (b :: body) := by
  have hchar : charLength (b :: body ++ v) = charLength (b :: body) := by
    rw [List.cons_append, charLength, charLength, firstRune_append_lineEnd hv]
  rw [next?, next?, rule?_append hv hd st hbody, symbolLength_append hv hd, hchar]
  cases hrule : rule? d st (b :: body) with
  | some r =>
    obtain ⟨k, n⟩ := r
    simp only [List.take_append_of_le_length (le_of_rule? hrule)]
  | none =>
    have hsymbol : symbolLength d (b :: body) ≤ (b :: body).length := symbolLength_le _
    have hwidth : charLength (b :: body) ≤ (b :: body).length := (Text.width_firstRune_bounds b body).2
    have hle : (if symbolLength d (b :: body) = 0 ∧ st.comment then charLength (b :: body)
        else symbolLength d (b :: body)) ≤ (b :: body).length := by
      split_ifs
      · exact hwidth
      · exact hsymbol
    simp only [List.take_append_of_le_length hle]

omit hv hd in
/-- A lexeme that is neither a symbol nor a register is what a rule accepts. -/
theorem rule?_of_next? {st : State} {t : Text} {l : Lexeme} (h : next? d st t = some l) (hsymbol : l.kind ≠ .symbol)
    (hregister : l.kind ≠ .register) : ∃ n, rule? d st t = some (l.kind, n) ∧ l.text = t.take n := by
  rw [next?] at h
  split at h
  next k n hrule =>
    cases h
    simp only at hregister ⊢
    split_ifs at hregister ⊢
    · exact absurd rfl hregister
    · exact ⟨n, hrule, rfl⟩
  next =>
    simp only at h
    split_ifs at h
    all_goals
      cases h
      exact absurd rfl hsymbol

omit hv hd in
theorem length_le_of_next? {st : State} {t : Text} {l : Lexeme} (h : next? d st t = some l) :
    l.text.length ≤ t.length := by
  rw [next?] at h
  split at h
  next =>
    cases h
    exact List.length_take_le' _ _
  next =>
    simp only at h
    split_ifs at h
    all_goals
      cases h
      exact List.length_take_le' _ _

/-- A text up to the end of a line is scanned as if it stood alone, and then what follows it unless the scan stops
before. -/
theorem lexemesFrom_append {skip : Nat} {st : State} {body : Text} (hbody : IsApart body v)
    (hskip : skip ≤ body.length) :
    lexemesFrom d skip st (body ++ v) =
      if (lexemesFrom d skip st body).2 = [] then
        ((lexemesFrom d skip st body).1 ++
          (lexemesFrom d 0 (st.afterAll d (lexemesFrom d skip st body).1) v).1,
          (lexemesFrom d 0 (st.afterAll d (lexemesFrom d skip st body).1) v).2)
      else ((lexemesFrom d skip st body).1, (lexemesFrom d skip st body).2 ++ v) := by
  induction body generalizing skip st with
  | nil =>
    obtain rfl : skip = 0 := Nat.le_zero.1 hskip
    simp [lexemesFrom, State.afterAll]
  | cons b body ih =>
    cases skip with
    | succ skip =>
      rw [List.cons_append, lexemesFrom, lexemesFrom, ih hbody.tail (Nat.le_of_succ_le_succ hskip)]
    | zero =>
      have hnext := next?_append hv hd st hbody
      rw [List.cons_append] at hnext ⊢
      rw [lexemesFrom, lexemesFrom, hnext]
      cases hl : next? d st (b :: body) with
      | none => simp
      | some l =>
        have hle : l.text.length - 1 ≤ body.length := by
          have hlength := length_le_of_next? hl
          rw [List.length_cons] at hlength
          omega
        simp only [ih hbody.tail hle, State.afterAll, List.foldl_cons]
        split_ifs <;> rfl

end Ends

end Scan

end EightBit
