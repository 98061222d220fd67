import Mathlib
import EightBit.Proofs.LineLocal
import EightBit.Proofs.Renumbering

/-!
# Constants scanned again

Every constant among the tokens of a text is a written constant or a written tree of operations. Its text, cut out of
its surroundings and substituted elsewhere, is therefore scanned to one token that stands for the same.

* `Mos6502.exists_constant_of_next?`: what is scanned as a constant is a written constant.
* `Mos6502.IsLegible`: tokens whose constants are written trees; `Mos6502.IsLegible.reduce`: reduction yields such
  tokens.
* `Mos6502.Spaced.pseudoTokenize_text`: the token of a written tree that is substituted.
-/

namespace EightBit

open Scan

/-! ## Letters of marks -/

namespace CaseRange

/-- Whether a run may map a code point to a given one. -/
def Reaches (r : CaseRange) (c : Nat) : Prop := (r.first : Int) ≤ c - r.shift ∧ (c : Int) - r.shift ≤ r.last

instance (r : CaseRange) (c : Nat) : Decidable (r.Reaches c) := inferInstanceAs (Decidable (_ ∧ _))

theorem reaches_of_map? {r : CaseRange} {c c' : Nat} (hc' : 0 < c') (h : r.map? c = some c') : r.Reaches c' := by
  unfold map? at h
  split_ifs at h with hc
  have hshift : ((c : Int) + r.shift).toNat = c' := by simpa using h
  unfold Reaches
  omega

theorem getD_map?_ne {ranges : List CaseRange} {c c' : Nat} (hc' : 0 < c') (hne : c ≠ c')
    (hranges : ∀ r ∈ ranges, ¬r.Reaches c') : (ranges.findSome? (·.map? c)).getD c ≠ c' := by
  cases h : ranges.findSome? (·.map? c) with
  | none => exact hne
  | some c'' =>
    obtain ⟨r, hr, hmap⟩ := List.exists_of_findSome?_eq_some h
    rintro rfl
    exact hranges r hr (reaches_of_map? hc' hmap)

end CaseRange

namespace CodePoint

/-- All letters that differ from a given one only in case are ASCII. -/
def HasAsciiForms (x : Nat) : Prop :=
  (∀ r ∈ CaseRange.upperCase, ¬r.Reaches x ∧ ¬r.Reaches (x - 0x20)) ∧ ∀ r ∈ CaseRange.lowerCase, ¬r.Reaches x

instance (x : Nat) : Decidable (HasAsciiForms x) := inferInstanceAs (Decidable (_ ∧ _))

theorem lt_of_fold_eq {c x : Nat} (hlow : 0x20 < x) (hhigh : x < 0x80) (hx : HasAsciiForms x) (h : fold c = x) :
    c < 0x80 := by
  by_contra hc
  have hne : ∀ y, y < 0x80 → c ≠ y := fun y hy => by omega
  -- The upper case of the code point is neither form of the letter, and so its lower case is not the letter.
  have hupper : ∀ y, 0 < y → y < 0x80 → (∀ r ∈ CaseRange.upperCase, ¬r.Reaches y) → upper c ≠ y := by
    intro y hpos hy hreaches
    rw [upper, if_neg hc]
    exact CaseRange.getD_map?_ne hpos (hne y hy) hreaches
  have hletter : upper c ≠ x := hupper x (by omega) hhigh fun r hr => (hx.1 r hr).1
  have hother : upper c ≠ x - 0x20 := hupper (x - 0x20) (by omega) (by omega) fun r hr => (hx.1 r hr).2
  unfold fold at h
  split_ifs at h with hdotted
  · omega
  · unfold lower at h
    split_ifs at h with hascii hcapital
    · omega
    · omega
    · exact CaseRange.getD_map?_ne (by omega) hletter hx.2 h

end CodePoint

/-! ## Written constants -/

/-- A character that is cut off behind its last byte stays one character, and a byte that is none stays alone. -/
theorem Text.firstRune_take (b : UInt8) (more : Text) :
    (firstRune b (more.take ((firstRune b more).width - 1))).width = (firstRune b more).width := by
  unfold firstRune
  rcases more with _ | ⟨x, _ | ⟨y, _ | ⟨z, more⟩⟩⟩ <;> simp only [Rune.invalid] <;> split_ifs <;> simp_all

theorem Text.runesFrom_eq_nil {skip : Nat} {t : Text} (h : t.length ≤ skip) : runesFrom skip t = [] := by
  induction t generalizing skip with
  | nil => rw [runesFrom]
  | cons b t ih =>
    obtain ⟨skip, rfl⟩ : ∃ n, skip = n + 1 := Nat.exists_eq_add_one.2 (Nat.lt_of_lt_of_le (by simp) h)
    rw [runesFrom]
    exact ih (by simpa using h)

/-- The bytes of the first character of a text are one character. -/
theorem Text.length_runes_take (b : UInt8) (more : Text) :
    (runes ((b :: more).take (firstRune b more).width)).length = 1 := by
  obtain ⟨w, hw⟩ : ∃ w, (firstRune b more).width = w + 1 :=
    Nat.exists_eq_add_one.2 (width_firstRune_bounds b more).1
  have hwidth := firstRune_take b more
  rw [hw, Nat.add_sub_cancel] at hwidth
  rw [hw, List.take_succ_cons, runes, runesFrom, hwidth, Nat.add_sub_cancel,
    runesFrom_eq_nil (List.length_take_le w more)]
  rfl

theorem Text.head?_take_firstRune (b : UInt8) (more : Text) :
    ((b :: more).take (firstRune b more).width).head? = some b := by
  have hpos := (width_firstRune_bounds b more).1
  rw [List.head?_take, if_neg (by omega), List.head?_cons]

namespace Mos6502

section Inversion

variable {t : Text} {n : Nat}

theorem exists_digits {isDigit : UInt8 → Bool} (h : digits? isDigit t = some n) :
    ∃ ds : Digits isDigit, t.take n = ds.text := by
  cases t with
  | nil => cases h
  | cons b rest =>
    rw [digits?, run?] at h
    split_ifs at h with hb
    cases h
    have hmore : ∀ c ∈ rest.takeWhile (fun c => isDigit c || c == 0x5F), isDigit c || c == 0x5F :=
      fun c hc => List.mem_takeWhile_imp (p := fun c => isDigit c || c == 0x5F) hc
    refine ⟨⟨b, _, hb, hmore⟩, ?_⟩
    rw [Nat.add_comm, List.take_succ_cons, ← List.prefix_iff_eq_take.1 (List.takeWhile_prefix _)]
    rfl

/-- A mark that starts with a symbol or a digit starts with that byte. -/
theorem exists_of_spelled? {b : UInt8} (hb : b.toNat < 0x40) {cs : List Nat} (h : spelled? (b.toNat :: cs) t = some n) :
    ∃ u m, t = b :: u ∧ spelled? cs u = some m ∧ n = 1 + m := by
  cases t with
  | nil => cases h
  | cons b' u =>
    have hfold : CodePoint.fold b.toNat = b.toNat := CodePoint.fold_of_lt _ hb
    -- Folding moves letters only, and no character beyond ASCII folds to a symbol or a digit.
    by_cases hb' : b' < 0x80
    · rw [spelled?_cons hb', hfold] at h
      split_ifs at h with heq
      obtain ⟨m, hm, rfl⟩ := Option.map_eq_some_iff.1 h
      rw [CodePoint.fold_of_lt _ (CodePoint.lt_of_fold_lt (heq ▸ hb))] at heq
      exact ⟨u, m, by rw [UInt8.toNat_inj.1 heq], hm, rfl⟩
    · simp only [spelled?] at h
      split_ifs at h with heq
      have hlt := CodePoint.lt_of_fold_lt (heq.trans hfold ▸ hb)
      have hle := Text.le_code_firstRune hb' u
      omega

/-- The letter of a mark is that letter in either case. -/
theorem exists_of_spelled?_letter {x : Nat} (hx : x = 0x62 ∨ x = 0x78) (h : spelled? [x] t = some n) :
    ∃ b u, t = b :: u ∧ n = 1 ∧ (b.toNat = x ∨ b.toNat = x - 0x20) := by
  have hfold : CodePoint.fold x = x := by rcases hx with rfl | rfl <;> decide
  -- The two letters have no form beyond ASCII, unlike the long s and the sign of the kelvin.
  have hcases : ∀ c, CodePoint.fold c = x → c = x ∨ c = x - 0x20 := by
    have hascii : ∀ c < 0x80, ∀ x ∈ [0x62, 0x78], CodePoint.fold c = x → c = x ∨ c = x - 0x20 := by decide
    intro c hc
    refine hascii c ?_ x (by simpa using hx) hc
    rcases hx with rfl | rfl <;> exact CodePoint.lt_of_fold_eq (by decide) (by decide) (by decide +kernel) hc
  cases t with
  | nil => cases h
  | cons b u =>
    by_cases hb : b < 0x80
    · rw [spelled?_cons hb, hfold, spelled?_nil] at h
      split_ifs at h with heq
      cases h
      exact ⟨b, u, rfl, rfl, hcases _ heq⟩
    · simp only [spelled?] at h
      split_ifs at h with heq
      have hle := Text.le_code_firstRune hb u
      rcases hcases _ (heq.trans hfold) with hcode | hcode <;> omega

/-- A numeral in another base is a mark with digits behind it. -/
theorem exists_of_radix? {introductions : List Text} {isDigit : UInt8 → Bool}
    (h : radix? introductions isDigit t = some n) :
    ∃ codes ∈ introductions.map Text.codePoints, ∃ m, spelled? codes t = some m ∧
      ∃ ds : Digits isDigit, t.take n = t.take m ++ ds.text := by
  rw [radix?_eq] at h
  obtain ⟨codes, hcodes, hlength⟩ := List.exists_of_findSome?_eq_some h
  obtain ⟨m, hm, hdigits⟩ := Option.bind_eq_some_iff.1 hlength
  obtain ⟨k, hk, rfl⟩ := Option.map_eq_some_iff.1 hdigits
  obtain ⟨ds, hds⟩ := exists_digits hk
  exact ⟨codes, hcodes, m, hm, ds, by rw [List.take_add, hds]⟩

/-- A mark is a symbol, or a zero and a letter in either case. -/
theorem take_of_spelled? {b : UInt8} (hb : b.toNat < 0x40) {x : Nat} (hx : x = 0x62 ∨ x = 0x78) {codes : List Nat}
    (hcodes : codes ∈ [[b.toNat], [0x30, x]]) (h : spelled? codes t = some n) :
    t.take n ∈ [[b], [0x30, x.toUInt8], [0x30, (x - 0x20).toUInt8]] := by
  rcases List.mem_pair.1 hcodes with rfl | rfl
  · obtain ⟨u, m, rfl, hm, rfl⟩ := exists_of_spelled? hb h
    rw [spelled?_nil] at hm
    cases hm
    simp
  · obtain ⟨u, m, rfl, hm, rfl⟩ := exists_of_spelled? (b := 0x30) (by decide) h
    obtain ⟨c, v, rfl, rfl, hc⟩ := exists_of_spelled?_letter hx hm
    have hletter : c = x.toUInt8 ∨ c = (x - 0x20).toUInt8 := by
      refine hc.imp (fun heq => ?_) fun heq => ?_ <;> simp [← heq]
    rcases hletter with rfl | rfl <;> simp

theorem exists_bin (h : radix? dialect.binPrefixes isBinDigit t = some n) :
    ∃ mark ∈ binMarks, ∃ ds : Digits isBinDigit, t.take n = mark ++ ds.text := by
  obtain ⟨codes, hcodes, m, hm, ds, hds⟩ := exists_of_radix? h
  rw [codePoints_binPrefixes] at hcodes
  refine ⟨t.take m, ?_, ds, hds⟩
  exact (by decide : ([[0x25], [0x30, 0x62], [0x30, 0x42]] : List Text) ⊆ binMarks)
    (take_of_spelled? (b := 0x25) (by decide) (.inl rfl) hcodes hm)

theorem exists_hex (h : radix? dialect.hexPrefixes isHexDigit t = some n) :
    ∃ mark ∈ hexMarks, ∃ ds : Digits isHexDigit, t.take n = mark ++ ds.text := by
  obtain ⟨codes, hcodes, m, hm, ds, hds⟩ := exists_of_radix? h
  rw [codePoints_hexPrefixes] at hcodes
  refine ⟨t.take m, ?_, ds, hds⟩
  exact (by decide : ([[0x24], [0x30, 0x78], [0x30, 0x58]] : List Text) ⊆ hexMarks)
    (take_of_spelled? (b := 0x24) (by decide) (.inr rfl) hcodes hm)

theorem exists_dec (h : signedDigits? t = some n) :
    ∃ sign, (sign = 0x2D ∨ sign = 0x2B) ∧ ∃ ds : Digits isDigit, t.take n = sign :: ds.text := by
  cases t with
  | nil => cases h
  | cons b rest =>
    rw [signedDigits?] at h
    split_ifs at h with hb
    obtain ⟨m, hm, rfl⟩ := Option.map_eq_some_iff.1 h
    obtain ⟨ds, hds⟩ := exists_digits hm
    exact ⟨b, hb, ds, by rw [Nat.add_comm, List.take_succ_cons, hds]⟩

theorem exists_literalChar (h : literalChar? 0x27 t = some n) : ∃ c : LiteralChar, t.take n = c.text := by
  cases t with
  | nil => cases h
  | cons b rest =>
    by_cases hb : b = 0x5C
    · subst hb
      cases rest with
      | nil => cases h
      | cons c more =>
        rw [literalChar?_escaped] at h
        split_ifs at h with hnewline
        cases h
        refine ⟨⟨true, _, Text.length_runes_take c more, ?_⟩, ?_⟩
        · rw [Text.head?_take_firstRune]
          rintro _ ⟨⟩
          exact ⟨hnewline, by simp⟩
        · rw [Nat.add_comm, List.take_succ_cons]
          rfl
    · rw [literalChar?_plain hb] at h
      split_ifs at h with hquote
      cases h
      rw [not_or] at hquote
      refine ⟨⟨false, _, Text.length_runes_take b rest, ?_⟩, rfl⟩
      rw [Text.head?_take_firstRune]
      rintro _ ⟨⟩
      exact ⟨hquote.2, fun _ => ⟨hquote.1, hb⟩⟩

theorem exists_char (h : charLiteral? t = some n) : ∃ c : LiteralChar, t.take n = 0x27 :: (c.text ++ [0x27]) := by
  cases t with
  | nil => cases h
  | cons b rest =>
    rw [charLiteral?_cons] at h
    split_ifs at h with hb
    obtain ⟨m, hm, hclosed⟩ := Option.bind_eq_some_iff.1 h
    split_ifs at hclosed with hquote
    cases hclosed
    obtain ⟨c, hc⟩ := exists_literalChar hm
    refine ⟨c, ?_⟩
    rw [hb, List.take_succ_cons, List.take_add, hc]
    cases hrest : rest.drop m with
    | nil => simp [hrest] at hquote
    | cons q more =>
      obtain rfl : q = 0x27 := by simpa [hrest] using hquote
      rfl

end Inversion

section Lexeme

variable {st : State} {t : Text} {l : Lexeme} (h : next? dialect st t = some l)

include h

/-- What is scanned as a constant is a written constant. -/
theorem exists_constant_of_next? (hl : l.kind.isConstant) : ∃ c : Constant, c.lexeme = l := by
  obtain ⟨n, hrule, htext⟩ := rule?_of_next? h (by rintro hk; simp [hk, TokenKind.isConstant] at hl)
    (by rintro hk; simp [hk, TokenKind.isConstant] at hl)
  obtain ⟨kind, text⟩ := l
  obtain rfl : text = t.take n := htext
  rcases rule?_cases hrule with ⟨rfl, hn⟩ | ⟨rfl, hn⟩ | ⟨rfl, hn⟩ | ⟨rfl, hn⟩ | ⟨rfl, hn⟩ | ⟨rfl, hn⟩ | ⟨rfl, hn⟩ |
    ⟨rfl, hn⟩ | ⟨rfl, hn⟩
  · cases hl
  · cases hl
  · obtain ⟨mark, hmark, ds, hds⟩ := exists_bin hn
    exact ⟨.bin mark hmark ds, by rw [hds]; rfl⟩
  · obtain ⟨mark, hmark, ds, hds⟩ := exists_hex hn
    exact ⟨.hex mark hmark ds, by rw [hds]; rfl⟩
  · obtain ⟨sign, hsign, ds, hds⟩ := exists_dec hn
    exact ⟨.dec sign hsign ds, by rw [hds]; rfl⟩
  · obtain ⟨ds, hds⟩ := exists_digits hn
    exact ⟨.udec ds, by rw [hds]; rfl⟩
  · obtain ⟨c, hc⟩ := exists_char hn
    exact ⟨.char c, by rw [hc]; rfl⟩
  · cases hl
  · cases hl

/-- What is scanned as a blank consists of blanks. -/
theorem isBlank_of_next? (hl : l.kind = .whitespace) : ∀ b ∈ l.text, isBlank b := by
  obtain ⟨n, hrule, htext⟩ := rule?_of_next? h (by simp [hl]) (by simp [hl])
  rw [hl] at hrule
  have hrun : run? isBlank isBlank t = some n := by simpa using rule?_cases hrule
  cases t with
  | nil => cases hrun
  | cons b rest =>
    rw [run?] at hrun
    split_ifs at hrun with hb
    cases hrun
    rw [htext, Nat.add_comm, List.take_succ_cons, ← List.prefix_iff_eq_take.1 (List.takeWhile_prefix _)]
    exact List.forall_mem_cons.2 ⟨hb, fun c hc => List.mem_takeWhile_imp hc⟩

/-- A decimal numeral does not run into a word. -/
theorem apart_of_next? (hl : l.kind = .udec) : !(t.drop l.text.length).head?.any isIdentifier := by
  obtain ⟨n, hrule, htext⟩ := rule?_of_next? h (by simp [hl]) (by simp [hl])
  rw [hl] at hrule
  have hdigits : apart t (digits? isDigit t) = some n := by simpa using rule?_eq_some hrule
  have hle : n ≤ t.length := le_of_rule? hrule
  have hend := (Option.filter_eq_some_iff.1 hdigits).2
  rwa [htext, List.length_take, Nat.min_eq_left hle]

end Lexeme

/-! ## Scanned lexemes -/

/-- Two lexemes of which the second is not the binary digits of the percent sign before it. -/
def Unfused (l m : Lexeme) : Prop := ∀ ds : Digits isBinDigit, l.text = [0x25] → m ≠ ⟨.udec, ds.text⟩

/-- No percent sign is scanned right before binary digits: they are one numeral. -/
theorem isChain_of_readsFrom {st : State} {ls : List Lexeme} {rest : Text} (h : ReadsFrom dialect st ls rest) :
    ls.IsChain Unfused := by
  induction ls generalizing st with
  | nil => exact .nil
  | cons l ls ih =>
    cases ls with
    | nil => exact .singleton l
    | cons m ls =>
      obtain ⟨hl, hrest⟩ := h
      refine .cons_cons (fun ds hpercent hm => ?_) (ih hrest)
      -- The digits do not run into a word, so that with the percent sign they are a binary numeral.
      have hend : (ls.flatMap Lexeme.text ++ rest).head?.all fun c => !isIdentifier c := by
        have hapart := apart_of_next? hrest.1.next?_eq (by rw [hm])
        rw [List.drop_left] at hapart
        cases hhead : (ls.flatMap Lexeme.text ++ rest).head? <;> simp_all
      have hmark : [0x25] ∈ binMarks := by decide
      have hrule : rule? dialect st (0x25 :: ds.text ++ (ls.flatMap Lexeme.text ++ rest)) =
          some (.bin, (0x25 :: ds.text).length) := rule?_bin hmark ds hend
      have hnext := hl.next?_eq
      rw [hpercent, List.flatMap_cons, hm, List.singleton_append, List.append_assoc, ← List.cons_append,
        next?_of_rule? (l := ⟨.bin, 0x25 :: ds.text⟩) (by simp) hrule] at hnext
      have htext : l.text = 0x25 :: ds.text := by rw [← Option.some.inj hnext]
      rw [hpercent] at htext
      simp [Digits.text] at htext

/-! ## Reduction -/

open Token

/-- Tokens as a scan and reduction yield them: constants are written trees, blanks consist of blanks, and no percent
sign stands right before binary digits. -/
structure IsLegible (ts : List Token) : Prop where
  constants : ∀ t ∈ ts, t.kind.isConstant → ∃ s : Spaced, s.clashes = false ∧ t.bare = s.token
  blanks : ∀ t ∈ ts, t.isSpace → t.text ≠ [] ∧ ∀ b ∈ t.text, isBlank b
  unfused : ts.IsChain fun t u => Unfused t.lexeme u.lexeme

theorem isLegible_located (file : Text) (p : Position) (id : Nat) (text : Text) :
    IsLegible (located file p id (Scan.lexemes dialect text).1) := by
  have hlexeme : ∀ t ∈ located file p id (Scan.lexemes dialect text).1,
      t.bare = t.lexeme.token ∧ ∃ st rest, next? dialect st rest = some t.lexeme := by
    intro t ht
    have hbare : t.bare ∈ (Scan.lexemes dialect text).1.map Lexeme.token := by
      rw [← map_bare_located file p id]
      exact List.mem_map_of_mem ht
    obtain ⟨l, hl, heq⟩ := List.mem_map.1 hbare
    have hlexeme : t.lexeme = l := by
      change t.bare.lexeme = l
      rw [← heq]
      rfl
    rw [hlexeme, heq]
    exact ⟨rfl, exists_next?_of_mem hl⟩
  refine ⟨fun t ht hconstant => ?_, fun t ht hspace => ?_, ?_⟩
  · obtain ⟨hbare, st, rest, hnext⟩ := hlexeme t ht
    obtain ⟨c, hc⟩ := exists_constant_of_next? hnext hconstant
    exact ⟨.constant c, rfl, by rw [hbare, ← hc]; rfl⟩
  · obtain ⟨-, st, rest, hnext⟩ := hlexeme t ht
    exact ⟨text_ne_nil_of_next? hnext, isBlank_of_next? hnext (beq_iff_eq.1 hspace)⟩
  · rw [← List.isChain_map, lexeme_located]
    exact isChain_of_readsFrom (readsFrom_lexemesFrom {} (Nat.zero_le _))

section Replace

variable {xs ys u₀ u₁ u₂ u₃ : List Token} {r : Redex} {o t : Token}

/-- Blanks in a row are blanks. -/
theorem exists_blanks {us : List Token} (h : ∀ u ∈ us, ∀ b ∈ u.text, isBlank b) : ∃ bs : Blanks, join us = bs.text := by
  refine ⟨⟨join us, fun b hb => ?_⟩, rfl⟩
  obtain ⟨u, hu, hb⟩ := List.mem_flatMap.1 hb
  exact h u hu b hb

theorem text_of_ofText? {text : Text} {op : Operator} (h : Operator.ofText? text = some op) : text = op.text := by
  have hfound := List.find?_some h
  exact (beq_iff_eq.1 hfound).symm

theorem Spaced.lexeme_of_binaryDigits? {s : Spaced} {ds : Digits isBinDigit} (h : s.binaryDigits? = some ds) :
    s.token.lexeme = ⟨.udec, ds.text⟩ := by
  unfold binaryDigits? at h
  split at h
  next digits =>
    split_ifs at h
    cases h
    rfl
  next => cases h

/-- An operation on written trees is one. -/
theorem IsLegible.exists_spaced (h : IsLegible (xs ++ r.span ++ t :: ys)) (hoperation : r.IsOperation u₀ u₁ u₂ u₃ o)
    (htext : t.text = (")" : Text)) : ∃ s : Spaced, s.clashes = false ∧ (r.token dialect t).bare = s.token := by
  have hmem : ∀ u, u ∈ r.opening :: u₀ ++ r.left :: u₁ ++ o :: u₂ ++ r.right :: u₃ → u ∈ xs ++ r.span ++ t :: ys := by
    intro u hu
    rw [hoperation.span]
    exact List.mem_append_left _ (List.mem_append_right _ hu)
  have hblank : ∀ u ∈ u₀ ++ u₁ ++ u₂ ++ u₃, u.text ≠ [] ∧ ∀ b ∈ u.text, isBlank b := by
    intro u hu
    refine h.blanks u (hmem u ?_) (hoperation.blanks u hu)
    simp only [List.mem_append, List.mem_cons] at hu ⊢
    tauto
  simp only [List.mem_append] at hblank
  obtain ⟨b₀, hb₀⟩ := exists_blanks fun u hu => (hblank u (.inl (.inl (.inl hu)))).2
  obtain ⟨b₁, hb₁⟩ := exists_blanks fun u hu => (hblank u (.inl (.inl (.inr hu)))).2
  obtain ⟨b₂, hb₂⟩ := exists_blanks fun u hu => (hblank u (.inl (.inr hu))).2
  obtain ⟨b₃, hb₃⟩ := exists_blanks fun u hu => (hblank u (.inr hu)).2
  obtain ⟨left, hleft, hl⟩ := h.constants r.left (hmem _ (by simp)) hoperation.left
  obtain ⟨right, hright, hr⟩ := h.constants r.right (hmem _ (by simp)) hoperation.right
  have ho := text_of_ofText? hoperation.operator
  have hclash : Spaced.clash? ⟨b₀, b₁, b₂, b₃⟩ r.op right = none := by
    rw [Spaced.clash?]
    split_ifs with hmod
    · rw [Option.eq_none_iff_forall_ne_some]
      intro ds hds
      -- Without blanks behind the percent sign, its digits would have been scanned with it.
      have hadjacent : u₂ = [] := by
        cases u₂ with
        | nil => rfl
        | cons u us =>
          rw [hmod.2, join_cons, List.append_eq_nil_iff] at hb₂
          exact absurd hb₂.1 (hblank u (.inl (.inr List.mem_cons_self))).1
      have hchain := h.unfused
      rw [hoperation.span, hadjacent, show xs ++ (r.opening :: u₀ ++ r.left :: u₁ ++ [o] ++ r.right :: u₃) ++ t :: ys =
        (xs ++ r.opening :: u₀ ++ r.left :: u₁) ++ o :: r.right :: (u₃ ++ t :: ys) by simp,
        List.isChain_append_cons_cons] at hchain
      refine hchain.2.1 ds (ho.trans (hmod.1 ▸ rfl)) ?_
      change r.right.bare.lexeme = _
      rw [hr, Spaced.lexeme_of_binaryDigits? hds]
    · rfl
  refine ⟨.operation ⟨b₀, b₁, b₂, b₃⟩ left r.op right, by simp [Spaced.clashes, hclash, hleft, hright], ?_⟩
  exact Spaced.bare_redex hoperation.span hoperation.opening ho htext hb₀ hb₁ hb₂ hb₃ hl hr

/-- Tokens stay legible where an operation is replaced by its expression. -/
theorem IsLegible.replace (h : IsLegible (xs ++ r.span ++ t :: ys)) (hoperation : r.IsOperation u₀ u₁ u₂ u₃ o)
    (htext : t.text = (")" : Text)) : IsLegible (xs ++ r.token dialect t :: ys) := by
  have hcases : ∀ u ∈ xs ++ r.token dialect t :: ys, u = r.token dialect t ∨ u ∈ xs ++ r.span ++ t :: ys := by
    intro u hu
    simp only [List.mem_append, List.mem_cons] at hu ⊢
    tauto
  refine ⟨fun u hu hconstant => ?_, fun u hu hspace => ?_, ?_⟩
  · rcases hcases u hu with rfl | hu
    · exact h.exists_spaced hoperation htext
    · exact h.constants u hu hconstant
  · rcases hcases u hu with rfl | hu
    · cases hspace
    · exact h.blanks u hu hspace
  · -- An expression is neither a percent sign nor a decimal numeral.
    obtain ⟨hleft, hright, -⟩ := List.isChain_append.1 h.unfused
    refine List.isChain_append.2 ⟨(List.isChain_append.1 hleft).1, ?_, fun u _ v hv ds _ hdigits => ?_⟩
    · refine List.isChain_cons.2 ⟨fun u _ ds hpercent => ?_, hright.tail⟩
      have hbracket : ("(" : Text) = [0x28] := by decide
      simp [lexeme, Redex.token, hoperation.span, hoperation.opening, hbracket] at hpercent
    · obtain rfl := Option.some.inj hv
      cases congrArg Lexeme.kind hdigits

/-- Reduction yields legible tokens. -/
theorem IsLegible.reduce {ts : List Token} (h : IsLegible ts) : IsLegible (reduce dialect ts) := by
  refine reduce_induction (fun hoperation htext hts => ?_) h
  obtain ⟨u₀, u₁, u₂, u₃, o, hoperation⟩ := hoperation
  exact hts.replace hoperation htext

end Replace

/-- Every constant among the tokens of a text is a written tree. -/
theorem exists_spaced_of_mem_tokenize {file text : Text} {t : Token} (ht : t ∈ (tokenize dialect file text).tokens)
    (hconstant : t.kind.isConstant) : ∃ s : Spaced, s.clashes = false ∧ t.bare = s.token := by
  have hlegible := isLegible_located file {} 0 text
  rw [tokens_tokenize] at ht
  split_ifs at ht
  · exact hlegible.reduce.constants t ht hconstant
  · exact hlegible.constants t ht hconstant

end Mos6502

/-! ## Substituted text -/

namespace Token

/-- A token at another location. -/
def relocate (loc : Location) (t : Token) : Token := { t with loc }

/-- Operations on tokens at one location are reduced at that location. -/
theorem isInert_relocate (d : Dialect) (loc : Location) : IsInert d (relocate loc) where
  kind _ := rfl
  text _ := rfl
  token r t := by
    have hjoin : join (r.span.map (relocate loc) ++ [t.relocate loc]) = join (r.span ++ [t]) := by
      rw [join_append, join_append, join_map (f := relocate loc) _ fun _ => rfl]
      rfl
    rw [Redex.token, Redex.token, if_neg fun h => lt_irrefl _ h.2, Redex.map, hjoin]
    rfl

theorem loc_of_mem_reduce {d : Dialect} {loc : Location} {ts : List Token} (hts : ∀ t ∈ ts, t.loc = loc) :
    ∀ t ∈ reduce d ts, t.loc = loc := by
  have hsame : ts.map (relocate loc) = ts := by
    refine (List.map_congr_left fun t ht => ?_).trans (List.map_id ts)
    rw [relocate, ← hts t ht]
    rfl
  intro t ht
  rw [← hsame, reduce_map (isInert_relocate d loc)] at ht
  obtain ⟨u, -, rfl⟩ := List.mem_map.1 ht
  rfl

/-- Reduction keeps the number of the first token. -/
theorem id_head?_reduce (d : Dialect) (ts : List Token) :
    (reduce d ts).head?.map Token.id = ts.head?.map Token.id := by
  -- An expression has the number of its opening bracket, which is the first token if nothing stands before it.
  refine reduce_induction (P := fun us => us.head?.map Token.id = ts.head?.map Token.id) ?_ rfl
  rintro xs ys r t ⟨u₀, u₁, u₂, u₃, o, hoperation⟩ - h
  rw [← h, hoperation.span]
  cases xs <;> rfl

end Token

namespace Scan

variable (loc : Location) (ctx : Context) (ls : List Lexeme)

theorem map_bare_pinned : (pinned loc ctx ls).1.map Token.bare = ls.map Lexeme.token := by
  induction ls generalizing ctx with
  | nil => rfl
  | cons l ls ih =>
    rw [pinned, List.map_cons, ih]
    rfl

theorem loc_of_mem_pinned : ∀ t ∈ (pinned loc ctx ls).1, t.loc = loc := by
  induction ls generalizing ctx with
  | nil => simp [pinned]
  | cons l ls ih => exact List.forall_mem_cons.2 ⟨rfl, ih _⟩

theorem synthetic_pinned : (pinned loc ctx ls).2.synthetic = ctx.synthetic + ls.length := by
  induction ls generalizing ctx with
  | nil => rfl
  | cons l ls ih =>
    rw [List.length_cons, Nat.add_comm ls.length, ← Nat.add_assoc]
    exact ih ctx.nextSynthetic.2

end Scan

namespace Mos6502

open Token

theorem Spaced.exists_lexemes (s : Spaced) : ∃ l ls, s.lexemes = l :: ls := by
  cases s <;> exact ⟨_, _, rfl⟩

/-- A written tree that does not clash is one token where it is substituted, with the next unused number. -/
theorem Spaced.pseudoTokenize_text {s : Spaced} (hs : s.clashes = false) (ctx : Context) (loc : Location) :
    ∃ t ctx', pseudoTokenize dialect ctx s.text loc = (⟨[t], none⟩, ctx') ∧ t.bare = s.token ∧ t.loc = loc ∧
      t.id = -(ctx.synthetic + 1 : Int) ∧ ctx.synthetic < ctx'.synthetic := by
  have hreads : ReadsFrom dialect {} s.lexemes [] := (s.readsBetween rfl {} rfl).1
  obtain ⟨t, below, hfold, htops⟩ := s.foldl_shift (map_bare_pinned loc ctx s.lexemes) []
  obtain ⟨hbare, rfl⟩ := htops.reduced hs
  have hreduce : reduce dialect (pinned loc ctx s.lexemes).1 = [t] := by
    rw [reduce, hfold]
    rfl
  obtain ⟨l, ls, hlexemes⟩ := s.exists_lexemes
  refine ⟨t, (pinned loc ctx s.lexemes).2, ?_, hbare, ?_, ?_, ?_⟩
  · rw [← s.flatMap_lexemes, pseudoTokenize, lexemes_of_readsFrom hreads]
    simp [errorAt?, Scanned.ofTokens, hreduce]
  · exact loc_of_mem_reduce (d := dialect) (loc_of_mem_pinned loc ctx s.lexemes) t (by simp [hreduce])
  · have hid := id_head?_reduce dialect (pinned loc ctx s.lexemes).1
    rw [hreduce, hlexemes] at hid
    exact Option.some.inj hid
  · rw [synthetic_pinned, hlexemes, List.length_cons]
    omega

end Mos6502

end EightBit
