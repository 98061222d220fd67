import Mathlib
import EightBit.Proofs.Linewise

/-!
# Where tokens stand

Nothing of a text is lost when it is cut into tokens, and every token says where it stands: its line is one more than
the number of newlines before it, and its column one more than the number of bytes since the last of them. Reduced
expressions are no exception, since an operation stands in one line.

* `Scan.Position.behind`: the place behind a text; `Location.behind` is the location of a text that stands there.
* `Token.IsLocated`: tokens that stand where they say.
* `Token.isLocated_reduce`: reduction keeps texts and locations.
* `Token.tokenize_isLocated`: the tokens of a text, whether or not it is accepted.
-/

namespace EightBit

open Scan

/-! ## Places in a text -/

namespace Scan.Position

/-- The place behind a text: a line further for every newline, and a column for every byte since the last newline. -/
def behind (t : Text) : Position where
  line := 1 + t.count 0x0A
  column := 1 + (t.reverse.takeWhile (· != 0x0A)).length

theorem behind_append_newline (t : Text) : behind (t ++ [0x0A]) = ⟨(behind t).line + 1, 1⟩ := by
  simp [behind, add_assoc]

theorem behind_append {u : Text} (hu : 0x0A ∉ u) (t : Text) :
    behind (t ++ u) = ⟨(behind t).line, (behind t).column + u.length⟩ := by
  have hline : ∀ b ∈ u.reverse, (b != 0x0A) = true := by
    intro b hb
    rw [bne_iff_ne]
    rintro rfl
    exact hu (List.mem_reverse.1 hb)
  have hcount : u.count 0x0A = 0 := List.count_eq_zero.2 hu
  simp only [behind, List.count_append, hcount, List.reverse_append, List.takeWhile_append_of_pos hline,
    List.length_append, List.length_reverse, Nat.add_zero, mk.injEq, true_and]
  push_cast
  ring

/-- Counting the newlines and bytes of lexemes is counting those of their text. -/
theorem afterAll_eq_behind {ls : List Lexeme} (hls : ∀ l ∈ ls, l.IsLine) :
    afterAll {} ls = behind (ls.flatMap Lexeme.text) := by
  induction ls using List.reverseRecOn with
  | nil => rfl
  | append_singleton ls l ih =>
    have hrest : afterAll {} ls = behind (ls.flatMap Lexeme.text) := ih fun m hm => hls m (List.mem_append_left _ hm)
    rw [afterAll_append, hrest, List.flatMap_append, List.flatMap_singleton]
    change (behind _).after l = _
    rcases hls l (by simp) with ⟨hkind, htext⟩ | ⟨hkind, htext⟩
    · rw [after, if_pos hkind, htext, behind_append_newline]
    · rw [after, if_neg hkind, behind_append htext]

end Scan.Position

/-- The location of a text that stands behind another one in a file. -/
def Location.behind (file before text : Text) : Location where
  file
  line := (Position.behind before).line
  column := (Position.behind before).column
  stop := (Position.behind before).column + text.length

/-! ## Tokens in their places -/

namespace Token

/-- Every token has the location of its text behind the texts of the tokens before it. -/
def IsLocated (file : Text) (ts : List Token) : Prop :=
  ∀ before t after, ts = before ++ t :: after → t.loc = .behind file (join before) t.text

/-- Whether a comment marker stands behind the last newline of some tokens. -/
def endsInComment (d : Dialect) (ts : List Token) : Bool :=
  (ts.reverse.takeWhile fun t => !t.isNewline).any (·.isSymbol d.comment)

section Located

variable {file : Text} {ts us : List Token} {t : Token}

theorem isLocated_append : IsLocated file (ts ++ us) ↔ IsLocated file ts ∧
    ∀ before t after, us = before ++ t :: after → t.loc = .behind file (join (ts ++ before)) t.text := by
  constructor
  · intro h
    exact ⟨fun before t after heq => h before t (after ++ us) (by simp [heq]),
      fun before t after heq => h (ts ++ before) t after (by simp [heq])⟩
  · rintro ⟨hts, hus⟩ before t after heq
    rcases List.append_eq_append_iff.1 heq with ⟨more, rfl, hmore⟩ | ⟨_ | ⟨u, more⟩, rfl, hmore⟩
    · exact hus more t after hmore
    · simpa using hus [] t after hmore.symm
    · obtain ⟨rfl, -⟩ := List.cons.inj hmore
      exact hts before t more rfl

theorem isLocated_append_singleton :
    IsLocated file (ts ++ [t]) ↔ IsLocated file ts ∧ t.loc = .behind file (join ts) t.text := by
  rw [isLocated_append]
  refine and_congr_right fun _ => ⟨fun h => by simpa using h [] t [] rfl, fun h before u after heq => ?_⟩
  obtain ⟨rfl, rfl, -⟩ : before = [] ∧ u = t ∧ after = [] := by simpa [List.singleton_eq_append_iff] using heq
  simpa using h

theorem isLocated_located {ls : List Lexeme} (hls : ∀ l ∈ ls, l.IsLine) (id : Nat) :
    IsLocated file (located file {} id ls) ∧ join (located file {} id ls) = ls.flatMap Lexeme.text := by
  induction ls using List.reverseRecOn with
  | nil => exact ⟨by simp [IsLocated, located], rfl⟩
  | append_singleton ls l ih =>
    have hrest : ∀ m ∈ ls, m.IsLine := fun m hm => hls m (List.mem_append_left _ hm)
    obtain ⟨hlocated, hjoin⟩ := ih hrest
    rw [located_append, Position.afterAll_eq_behind hrest]
    refine ⟨isLocated_append_singleton.2 ⟨hlocated, ?_⟩, ?_⟩
    · rw [hjoin]
      rfl
    · simp [hjoin, located]

end Located

/-! ## Reduction -/

section Reduce

variable {file : Text} {d : Dialect} {xs ys : List Token} {r : Redex} {t : Token}
  (hoperation : ∃ u₀ u₁ u₂ u₃ o, r.IsOperation u₀ u₁ u₂ u₃ o)

include hoperation

/-- A bracketed operation stands in one line. -/
theorem newline_not_mem_span (hlines : ∀ u ∈ r.span, u.lexeme.IsLine) : 0x0A ∉ join r.span := by
  obtain ⟨u₀, u₁, u₂, u₃, o, hoperation⟩ := hoperation
  intro hmem
  obtain ⟨u, hu, hnewline⟩ := List.mem_flatMap.1 hmem
  rcases hlines u hu with ⟨hkind, htext⟩ | ⟨-, htext⟩
  · -- A newline is nothing of what an operation consists of.
    replace hkind : u.kind = .newline := hkind
    replace htext : u.text = [0x0A] := htext
    rcases hoperation.cases hu with hspace | hconstant | hopening | hoperator
    · simp [isSpace, TokenKind.isSpace, hkind] at hspace
    · simp [hkind, TokenKind.isConstant] at hconstant
    · rw [htext] at hopening
      exact absurd hopening (by decide)
    · rw [htext] at hoperator
      exact absurd hoperator (by decide)
  · exact htext hnewline

variable (hlocated : IsLocated file (xs ++ r.span ++ t :: ys)) (hspan : 0x0A ∉ join r.span)
  (htext : t.text = (")" : Text))

include hlocated hspan htext

/-- The expression that a bracket closes stands where its operation does. -/
theorem loc_token : (r.token d t).loc = .behind file (join xs) (r.token d t).text := by
  obtain ⟨u₀, u₁, u₂, u₃, o, hoperation⟩ := hoperation
  have ht : t.loc = .behind file (join (xs ++ r.span)) t.text := hlocated _ t ys rfl
  have hopening : r.opening.loc = .behind file (join xs) r.opening.text :=
    hlocated xs r.opening (u₀ ++ r.left :: u₁ ++ o :: u₂ ++ r.right :: u₃ ++ t :: ys) (by simp [hoperation.span])
  have hlength : r.opening.text.length ≤ (join r.span).length := by
    rw [hoperation.span]
    simp
  have hclosing : 0 < t.text.length := by
    rw [htext]
    decide
  rw [join_append] at ht
  -- No newline stands between the brackets, so that the expression reaches to the end of the closing one.
  have hline : t.loc.line = r.opening.loc.line := by
    rw [ht, hopening, Location.behind, Location.behind, Position.behind_append hspan]
  have hstop : r.opening.loc.stop < t.loc.stop := by
    rw [ht, hopening, Location.behind, Location.behind, Position.behind_append hspan]
    simp only
    omega
  simp only [Redex.token]
  rw [if_pos ⟨hline, hstop⟩, ht, hopening]
  simp only [Location.behind, Position.behind_append hspan, join_append, join_cons, join_nil, List.append_nil,
    List.length_append]
  congr 1
  push_cast
  ring

/-- All tokens stay in their places where an operation is replaced by its expression. -/
theorem isLocated_replace : IsLocated file (xs ++ r.token d t :: ys) := by
  refine isLocated_append.2 ⟨(isLocated_append.1 (isLocated_append.1 hlocated).1).1, fun before u after heq => ?_⟩
  rcases List.cons_eq_append_iff.1 heq with ⟨rfl, hu⟩ | ⟨before, rfl, rfl⟩
  · obtain ⟨rfl, -⟩ := List.cons.inj hu
    simpa using loc_token hoperation hlocated hspan htext
  · rw [hlocated (xs ++ r.span ++ t :: before) u after (by simp)]
    simp [Redex.token]

omit hoperation hlocated hspan htext in
/-- Reduction keeps all tokens in their places, and all of their text. -/
theorem isLocated_reduce {ts : List Token} (hts : IsLocated file ts) (hlines : ∀ t ∈ ts, t.lexeme.IsLine) :
    IsLocated file (reduce d ts) ∧ join (reduce d ts) = join ts := by
  have hreduced : IsLocated file (reduce d ts) ∧ (∀ t ∈ reduce d ts, t.lexeme.IsLine) ∧
      join (reduce d ts) = join ts := by
    -- Reductions in any order: each replaces an operation by one token, which starts where the operation
    -- starts.
    refine reduce_induction (P := fun us => IsLocated file us ∧ (∀ u ∈ us, u.lexeme.IsLine) ∧ join us = join ts)
      ?_ ⟨hts, hlines, rfl⟩
    rintro xs ys r t hoperation htext ⟨hlocated, hlines, hjoin⟩
    have hspan : 0x0A ∉ join r.span := newline_not_mem_span hoperation fun u hu => hlines u (by simp [hu])
    refine ⟨isLocated_replace hoperation hlocated hspan htext, ?_, by simp [← hjoin, Redex.token]⟩
    intro u hu
    rcases List.mem_append.1 hu with hu | hu
    · exact hlines u (by simp [hu])
    rcases List.mem_cons.1 hu with rfl | hu
    · have hbracket : 0x0A ∉ (")" : Text) := by decide
      exact .inr ⟨by simp [lexeme, Redex.token], by simp [lexeme, Redex.token, htext, hspan, hbracket]⟩
    · exact hlines u (by simp [hu])
  exact ⟨hreduced.1, hreduced.2.2⟩

end Reduce

/-! ## The tokens of a text -/

section Tokenize

variable {d : Dialect}

/-- A scan is in a comment where a comment marker stands behind the last newline. -/
theorem comment_afterAll (file : Text) (p : Position) (id : Nat) (ls : List Lexeme) :
    (State.afterAll d {} ls).comment = endsInComment d (located file p id ls) := by
  induction ls using List.reverseRecOn with
  | nil => rfl
  | append_singleton ls l ih =>
    rw [State.afterAll, List.foldl_append, located_append]
    change (State.after d (State.afterAll d {} ls) l).comment = _
    by_cases hl : l.kind = .newline
    · simp [State.after, endsInComment, located, isNewline, hl]
    · simp [State.after, endsInComment, located, isNewline, isSymbol, hl, ih, Bool.or_comm]

/-- Cutting a text into tokens loses nothing and locates everything: every token, expressions included, has its line
and columns from the text before it; the texts of the tokens are the whole text if it is accepted, and else a proper
part of its start, at whose end, outside of a comment, the error is. -/
theorem tokenize_isLocated (hd : d.IsLinewise) (file text : Text) :
    IsLocated file (tokenize d file text).tokens ∧
      ((tokenize d file text).error = none → join (tokenize d file text).tokens = text) ∧
      ∀ e, (tokenize d file text).error = some e →
        (∃ rest, rest ≠ [] ∧ text = join (tokenize d file text).tokens ++ rest) ∧
          e.loc.file = file ∧ e.loc.line = (Position.behind (join (tokenize d file text).tokens)).line ∧
          e.loc.column = (Position.behind (join (tokenize d file text).tokens)).column ∧
          endsInComment d (tokenize d file text).tokens = false := by
  have hlines : ∀ l ∈ (lexemes d text).1, l.IsLine := fun l hl => isLine_of_mem hd hl
  obtain ⟨hlocated, hjoin⟩ : IsLocated file (located file {} 0 (lexemes d text).1) ∧ _ := isLocated_located hlines 0
  have htext := flatMap_lexemes d text
  have htokens : ∀ t ∈ located file {} 0 (lexemes d text).1, t.lexeme.IsLine := by
    intro t ht
    refine hlines _ ?_
    rw [← lexeme_located file {} 0 (lexemes d text).1]
    exact List.mem_map_of_mem ht
  rw [tokenize]
  by_cases hrest : (lexemes d text).2 = []
  · obtain ⟨hreduced, hkept⟩ := isLocated_reduce (d := d) hlocated htokens
    rw [hrest, List.append_nil] at htext
    simp only [hrest, errorAt?, Scanned.ofTokens]
    exact ⟨hreduced, fun _ => by simp [hkept, hjoin, htext], by simp⟩
  · obtain ⟨b, rest, heq⟩ := List.exists_cons_of_ne_nil hrest
    have hcomment := comment_of_next? hrest (next?_of_lexemesFrom {} hrest)
    rw [comment_afterAll file {} 0] at hcomment
    have hposition := Position.afterAll_eq_behind hlines
    simp only [heq, errorAt?, Scanned.ofTokens]
    refine ⟨hlocated, by simp, ?_⟩
    rintro e ⟨⟩
    simp only [Option.isNone_some, Bool.false_eq_true, if_false, hjoin, hposition, true_and]
    exact ⟨⟨b :: rest, by simp, by rw [← heq, htext]⟩, hcomment⟩

end Tokenize

/-- A byte that is no character stands in a comment, and an expression in the line below it. -/
def locatedSource : Text := (";" : Text) ++ 0xC3 :: ("\n LDA #(1+\t$20)\n" : Text)

/-- A letter with an accent stands outside of a comment. -/
def accentedSource : Text := "; é\n X é"

theorem tokenize_isLocated_sources :
    Mos6502.dialect.IsLinewise ∧
      (IsLocated "a.s" (tokenize Mos6502.dialect "a.s" locatedSource).tokens ∧
        join (tokenize Mos6502.dialect "a.s" locatedSource).tokens = locatedSource) ∧
      (tokenize Mos6502.dialect "a.s" accentedSource).error = some ⟨⟨"a.s", 2, 4, 5⟩, "é"⟩ ∧
      (Position.behind (join (tokenize Mos6502.dialect "a.s" accentedSource).tokens)).line = 2 := by
  have hd : Mos6502.dialect.IsLinewise := ⟨by decide, by decide⟩
  obtain ⟨hlocated, haccepted, -⟩ := tokenize_isLocated hd "a.s" locatedSource
  obtain ⟨-, -, hrefused⟩ := tokenize_isLocated hd "a.s" accentedSource
  have herror : (tokenize Mos6502.dialect "a.s" accentedSource).error = some ⟨⟨"a.s", 2, 4, 5⟩, "é"⟩ := by
    decide +kernel
  obtain ⟨-, -, hline, -⟩ := hrefused _ herror
  exact ⟨hd, ⟨hlocated, haccepted (by decide +kernel)⟩, herror, hline.symm⟩

end Token

end EightBit
