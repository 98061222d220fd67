import Mathlib
import EightBit.Proofs.LetterCase
import EightBit.Proofs.LinesAlike

/-!
# Lexemes of texts and of lines

The lexemes of a text, put together, are the text up to where the scan stopped. Where no mark and no symbol of the
dialect has a newline in it, no lexeme but the newline itself has one either, and a line is scanned as if it stood
alone.

* `Scan.flatMap_lexemes`: the lexemes of a text and what is left are the text.
* `Dialect.IsLinewise`: a dialect that keeps to lines; `Scan.isLine_of_next?`: so do its lexemes.
* `Scan.lexemes_append_newline`: the scan of a text, a newline and another text.
-/

namespace EightBit

/-! ## Newlines and code points -/

namespace CaseRange

/-- Where a run starts that maps a code point to one below its image of the first. -/
theorem le_of_map? {r : CaseRange} {bound c c' : Nat} (hr : (bound : Int) ≤ r.first + r.shift)
    (h : r.map? c = some c') : bound ≤ c' := by
  unfold map? at h
  split_ifs at h with hc
  cases h
  omega

end CaseRange

namespace CodePoint

/-- Beyond ASCII, no code point is mapped to one below the letters. -/
theorem le_of_findSome?_map? {ranges : List CaseRange}
    (hranges : ∀ r ∈ ranges, ((0x40 : Nat) : Int) ≤ r.first + r.shift) {c : Nat} (hc : 0x40 ≤ c) :
    0x40 ≤ (ranges.findSome? (·.map? c)).getD c := by
  cases h : ranges.findSome? (·.map? c) with
  | none => exact hc
  | some c' =>
    obtain ⟨r, hr, hmap⟩ := List.exists_of_findSome?_eq_some h
    exact CaseRange.le_of_map? (hranges r hr) hmap

theorem le_upper {c : Nat} (hc : 0x40 ≤ c) : 0x40 ≤ upper c := by
  unfold upper
  split_ifs
  · omega
  · exact hc
  · exact le_of_findSome?_map? (by decide +kernel) hc

theorem le_lower {c : Nat} (hc : 0x40 ≤ c) : 0x40 ≤ lower c := by
  unfold lower
  split_ifs
  · omega
  · exact hc
  · exact le_of_findSome?_map? (by decide +kernel) hc

/-- Folding letter case keeps what stands before the letters apart from the rest. -/
theorem lt_of_fold_lt {c : Nat} (h : fold c < 0x40) : c < 0x40 := by
  by_contra hge
  have hc : 0x40 ≤ c := Nat.le_of_not_lt hge
  have hfold : 0x40 ≤ fold c := by
    unfold fold
    split_ifs
    · exact hc
    · exact le_lower (le_upper hc)
  omega

end CodePoint

namespace Text

/-- A byte beyond ASCII starts no character of ASCII: overlong forms are not valid. -/
theorem le_code_firstRune {b : UInt8} (hb : ¬b < 0x80) (rest : Text) : 0x80 ≤ (firstRune b rest).code := by
  have hinvalid : 0x80 ≤ Rune.invalid.code := by decide
  have hguarded : ∀ {guard : Prop} [Decidable guard] {r : Rune}, (guard → 0x80 ≤ r.code) →
      0x80 ≤ (if guard then r else Rune.invalid).code := by
    intro guard _ r hr
    split_ifs with h
    · exact hr h
    · exact hinvalid
  unfold firstRune
  rw [if_neg hb]
  split_ifs with htwo hthree hfour
  · have hlow : 0xC2 ≤ b.toNat := by simpa [UInt8.le_iff_toNat_le] using htwo.1
    have hhigh : b.toNat ≤ 0xDF := by simpa [UInt8.le_iff_toNat_le] using htwo.2
    split
    · refine hguarded fun _ => ?_
      simp only
      omega
    · exact hinvalid
  · split
    · refine hguarded fun hvalid => ?_
      simp only [Bool.and_eq_true, decide_eq_true_eq] at hvalid
      exact le_trans (by decide) hvalid.1.2
    · exact hinvalid
  · split
    · refine hguarded fun hvalid => ?_
      simp only [Bool.and_eq_true, decide_eq_true_eq] at hvalid
      exact le_trans (by decide) hvalid.1.2
    · exact hinvalid
  · exact hinvalid

theorem mem_of_mem_codePoints {c : Nat} (hc : c < 0x80) {t : Text} (h : c ∈ t.codePoints) :
    ∃ b ∈ t, b.toNat = c := by
  obtain ⟨b, hb, rest, rfl⟩ := exists_firstRune_of_mem_codePoints h
  refine ⟨b, hb, ?_⟩
  by_cases hascii : b < 0x80
  · simp [firstRune, hascii]
  · have hle := le_code_firstRune hascii rest
    omega

end Text

/-! ## Lexemes of a line -/

/-- A dialect in whose marks and symbols no newline occurs, so that no lexeme reaches over the end of a line. -/
structure Dialect.IsLinewise (d : Dialect) : Prop where
  marks : ∀ p ∈ d.binPrefixes ++ d.hexPrefixes, 0x0A ∉ p
  symbols : ∀ s ∈ d.multiSymbols, 0x0A ∉ s

/-- A lexeme that is a newline, or in which there is no newline. -/
def Lexeme.IsLine (l : Lexeme) : Prop := l.kind = .newline ∧ l.text = [0x0A] ∨ l.kind ≠ .newline ∧ 0x0A ∉ l.text

namespace Scan

theorem avoids_newline {d : Dialect} (hd : d.IsLinewise) : Avoids d 0x0A where
  marks p hp c hc heq := by
    have hnewline : CodePoint.fold c = 0x0A := heq.symm
    have hlt : c < 0x40 := CodePoint.lt_of_fold_lt (by omega)
    rw [CodePoint.fold_of_lt c hlt] at hnewline
    obtain ⟨b, hb, hbc⟩ := Text.mem_of_mem_codePoints (by omega) hc
    have hbnewline : b = 0x0A := UInt8.toNat_inj.1 (by rw [hbc, hnewline]; rfl)
    exact hd.marks p hp (hbnewline ▸ hb)
  symbols := hd.symbols

section Lexemes

variable {d : Dialect} {st : State} {t : Text} {l : Lexeme}

theorem pos_of_rule? {k : TokenKind} {n : Nat} (h : rule? d st t = some (k, n)) : 0 < n := by
  have hrun : ∀ {start part : UInt8 → Bool} {t : Text} {n : Nat}, run? start part t = some n → 0 < n := by
    intro start part t n hn
    cases t with
    | nil => cases hn
    | cons b t =>
      rw [run?] at hn
      split_ifs at hn
      cases hn
      omega
  have hradix : ∀ {introductions : List Text} {isDigit : UInt8 → Bool} {n : Nat},
      radix? introductions isDigit t = some n → 0 < n := by
    intro introductions isDigit n hn
    obtain ⟨p, -, hp⟩ := List.exists_of_findSome?_eq_some hn
    obtain ⟨m, -, hdigits⟩ := Option.bind_eq_some_iff.1 hp
    obtain ⟨k, hk, rfl⟩ := Option.map_eq_some_iff.1 hdigits
    have hpos := hrun hk
    omega
  rcases rule?_cases h with ⟨-, h⟩ | ⟨-, h⟩ | ⟨-, h⟩ | ⟨-, h⟩ | ⟨-, h⟩ | ⟨-, h⟩ | ⟨-, h⟩ | ⟨-, h⟩ | ⟨-, h⟩
  · exact hrun h
  · rw [(newline?_eq_some h).1]
    exact Nat.one_pos
  · exact hradix h
  · exact hradix h
  · cases t with
    | nil => cases h
    | cons b t =>
      rw [signedDigits?] at h
      split_ifs at h
      obtain ⟨m, -, rfl⟩ := Option.map_eq_some_iff.1 h
      omega
  · exact hrun h
  · cases t with
    | nil => cases h
    | cons b t =>
      rw [charLiteral?_cons] at h
      split_ifs at h
      obtain ⟨m, -, hquote⟩ := Option.bind_eq_some_iff.1 h
      split_ifs at hquote
      cases hquote
      omega
  · cases t with
    | nil => cases h
    | cons b t =>
      rw [stringLiteral?_cons] at h
      split_ifs at h
      obtain ⟨m, -, rfl⟩ := Option.map_eq_some_iff.1 h
      omega
  · exact hrun h

/-- The next lexeme is the start of the text, and never empty. -/
theorem exists_take_of_next? (h : next? d st t = some l) : ∃ n, 0 < n ∧ n ≤ t.length ∧ l.text = t.take n := by
  rw [next?] at h
  split at h
  next k n hrule =>
    cases h
    exact ⟨n, pos_of_rule? hrule, le_of_rule? hrule, rfl⟩
  next =>
    have hchar : charLength t ≤ t.length := by
      cases t with
      | nil => exact Nat.le_refl 0
      | cons b t => exact (Text.width_firstRune_bounds b t).2
    have hsymbol : symbolLength d t ≤ t.length := symbolLength_le t
    simp only at h
    split_ifs at h with hcomment hzero hzero
    · cases h
      exact ⟨charLength t, Nat.pos_of_ne_zero hzero, hchar, rfl⟩
    · cases h
      exact ⟨symbolLength d t, Nat.pos_of_ne_zero hzero, hsymbol, rfl⟩

theorem text_ne_nil_of_next? (h : next? d st t = some l) : l.text ≠ [] := by
  obtain ⟨n, hpos, hle, htext⟩ := exists_take_of_next? h
  rw [htext]
  exact List.ne_nil_of_length_pos (by rwa [List.length_take_of_le hle])

/-- The next lexeme and what stands behind it in a text are the text. -/
theorem text_append_drop {b : UInt8} (h : next? d st (b :: t) = some l) :
    l.text.length - 1 ≤ t.length ∧ l.text ++ t.drop (l.text.length - 1) = b :: t := by
  obtain ⟨n, hpos, hle, htext⟩ := exists_take_of_next? h
  obtain ⟨k, rfl⟩ := Nat.exists_eq_add_of_le' hpos
  have hlength : l.text.length - 1 = k := by
    rw [htext, List.length_take_of_le hle]
    rfl
  rw [hlength, htext]
  exact ⟨Nat.le_of_succ_le_succ hle, List.take_append_drop (k + 1) (b :: t)⟩

/-- The lexemes of a text and what is left where the scan stopped are the text. -/
theorem flatMap_lexemesFrom {skip : Nat} (st : State) (hskip : skip ≤ t.length) :
    (lexemesFrom d skip st t).1.flatMap Lexeme.text ++ (lexemesFrom d skip st t).2 = t.drop skip := by
  induction t generalizing skip st with
  | nil =>
    obtain rfl : skip = 0 := Nat.le_zero.1 hskip
    rfl
  | cons b t ih =>
    -- By induction on the bytes; the skipped ones were accounted for by the lexeme that they belong to.
    cases skip with
    | succ skip => exact ih st (Nat.le_of_succ_le_succ hskip)
    | zero =>
      rw [lexemesFrom]
      cases hnext : next? d st (b :: t) with
      | none => rfl
      | some l =>
        obtain ⟨hle, hwhole⟩ := text_append_drop hnext
        simp only [List.flatMap_cons, List.append_assoc]
        rw [ih (st.after d l) hle, hwhole]
        rfl

theorem flatMap_lexemes (d : Dialect) (t : Text) : (lexemes d t).1.flatMap Lexeme.text ++ (lexemes d t).2 = t :=
  flatMap_lexemesFrom {} (Nat.zero_le _)

/-- The lexemes of a scan are read back one after the other before what is left where it stopped. -/
theorem readsFrom_lexemesFrom {skip : Nat} (st : State) (hskip : skip ≤ t.length) :
    ReadsFrom d st (lexemesFrom d skip st t).1 (lexemesFrom d skip st t).2 := by
  induction t generalizing skip st with
  | nil => simp [lexemesFrom, ReadsFrom]
  | cons b t ih =>
    cases skip with
    | succ skip => exact ih st (Nat.le_of_succ_le_succ hskip)
    | zero =>
      rw [lexemesFrom]
      cases hnext : next? d st (b :: t) with
      | none => trivial
      | some l =>
        obtain ⟨hle, hwhole⟩ := text_append_drop hnext
        refine ⟨⟨text_ne_nil_of_next? hnext, ?_⟩, ih _ hle⟩
        rw [flatMap_lexemesFrom _ hle, hwhole, hnext]

/-- Where a scan stops before the end of the text, there is no next lexeme. -/
theorem next?_of_lexemesFrom {skip : Nat} (st : State) (hrest : (lexemesFrom d skip st t).2 ≠ []) :
    next? d (st.afterAll d (lexemesFrom d skip st t).1) (lexemesFrom d skip st t).2 = none := by
  induction t generalizing skip st with
  | nil => exact absurd rfl hrest
  | cons b t ih =>
    cases skip with
    | succ skip => exact ih st hrest
    | zero =>
      rw [lexemesFrom] at hrest ⊢
      cases hnext : next? d st (b :: t) with
      | none => exact hnext
      | some l =>
        rw [hnext] at hrest
        exact ih (st.after d l) hrest

/-- In a comment there is always a next lexeme. -/
theorem comment_of_next? (ht : t ≠ []) (h : next? d st t = none) : st.comment = false := by
  obtain ⟨b, rest, rfl⟩ := List.exists_cons_of_ne_nil ht
  have hpos : 0 < charLength (b :: rest) := (Text.width_firstRune_bounds b rest).1
  rw [next?] at h
  split at h
  next => cases h
  next =>
    by_contra hcomment
    rw [Bool.not_eq_false] at hcomment
    simp only [hcomment, and_true] at h
    split_ifs at h with hsymbol
    omega

end Lexemes

section Linewise

variable {d : Dialect} (hd : d.IsLinewise)

include hd

theorem avoids_head (rest : Text) : ∀ b ∈ (0x0A :: rest : Text).head?, Avoids d b := by
  rintro b ⟨⟩
  exact avoids_newline hd

omit hd in
theorem isLineEnd_newline (rest : Text) : IsLineEnd (0x0A :: rest) := ⟨[], rest, by simp, rfl⟩

omit hd in
theorem isApart_newline (body rest : Text) : IsApart body (0x0A :: rest) := by
  refine .inr ?_
  rintro b ⟨⟩
  decide

/-- A lexeme is a newline, or there is no newline in it. -/
theorem isLine_of_next? {st : State} {t : Text} {l : Lexeme} (h : next? d st t = some l) : l.IsLine := by
  obtain ⟨n, hpos, hle, htext⟩ := exists_take_of_next? h
  cases t with
  | nil => exact absurd hpos (by simpa using hle)
  | cons b body =>
    by_cases hb : b = 0x0A
    · subst hb
      have hnewline : next? d st (0x0A :: body) = some ⟨.newline, [0x0A]⟩ := (Reads.newline body).next?_eq st
      rw [hnewline] at h
      cases h
      exact .inl ⟨rfl, rfl⟩
    · refine .inr ⟨fun hkind => ?_, fun hmem => ?_⟩
      · rw [text_of_next? h hkind] at htext
        obtain ⟨k, rfl⟩ := Nat.exists_eq_add_of_le' hpos
        exact hb (List.cons.inj htext).1.symm
      · have hin : 0x0A ∈ body := by
          rw [htext] at hmem
          exact (List.mem_cons.1 (List.mem_of_mem_take hmem)).resolve_left fun heq => hb heq.symm
        -- The lexeme would be the same without the newline and what follows it.
        obtain ⟨before, after, rfl, hbefore⟩ := List.eq_append_cons_of_mem hin
        rw [← List.cons_append, next?_append (isLineEnd_newline after) (avoids_head hd after) st
          (isApart_newline _ after)] at h
        obtain ⟨m, -, -, htext'⟩ := exists_take_of_next? h
        rw [htext'] at hmem
        rcases List.mem_cons.1 (List.mem_of_mem_take hmem) with heq | hmem
        · exact hb heq.symm
        · exact hbefore hmem

/-- A text is scanned up to a newline as if it stood alone, and then anew behind the newline. -/
theorem lexemes_append_newline (t rest : Text) :
    lexemes d (t ++ 0x0A :: rest) =
      if (lexemes d t).2 = [] then
        ((lexemes d t).1 ++ ⟨.newline, [0x0A]⟩ :: (lexemes d rest).1, (lexemes d rest).2)
      else ((lexemes d t).1, (lexemes d t).2 ++ 0x0A :: rest) := by
  have hnewline : ∀ st : State, lexemesFrom d 0 st (0x0A :: rest) =
      (⟨.newline, [0x0A]⟩ :: (lexemes d rest).1, (lexemes d rest).2) :=
    fun st => ((Reads.newline rest).readsIn st).lexemesFrom_append
  rw [lexemes, lexemesFrom_append (isLineEnd_newline rest) (avoids_head hd rest) (isApart_newline t rest)
    (Nat.zero_le _), hnewline]
  rfl

/-- A text is accepted if it is accepted with a newline behind it. -/
theorem stop_of_append_newline {t : Text} (h : (lexemes d (t ++ [0x0A])).2 = []) : (lexemes d t).2 = [] := by
  by_contra hne
  rw [lexemes_append_newline hd, if_neg hne] at h
  exact List.append_ne_nil_of_right_ne_nil _ (List.cons_ne_nil _ _) h

theorem isLine_of_mem {t : Text} {l : Lexeme} (h : l ∈ (lexemes d t).1) : l.IsLine := by
  obtain ⟨st, u, hnext⟩ := exists_next?_of_mem h
  exact isLine_of_next? hd hnext

end Linewise

theorem errorAt?_eq_none {file : Text} {p : Position} {rest : Text} : errorAt? file p rest = none ↔ rest = [] := by
  cases rest <;> simp [errorAt?]

end Scan

end EightBit
