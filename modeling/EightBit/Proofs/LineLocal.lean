import Mathlib
import EightBit.Proofs.Locating

/-!
# Lines are cut into tokens on their own

At a newline a scan starts anew: what stands before it neither makes a sign part of a number nor leaves a comment open,
and no operation reaches over it. So the tokens of two texts with a newline between them are those of the first one
and, as many lines further down, those of the second one.

* `Location.down`, `Token.down`, `LexError.down`: what stands some lines further down.
* `Token.isInert_down`: reduction does not see in which line an operation stands.
* `Token.tokenize_append_newline`: the tokens of two texts with a newline between them.
-/

namespace EightBit

open Scan

/-! ## Lines further down -/

/-- A location some lines further down. -/
def Location.down (lines : Nat) (loc : Location) : Location := { loc with line := loc.line + lines }

/-- A token some lines further down. -/
def Token.down (lines : Nat) (t : Token) : Token := { t with loc := t.loc.down lines }

/-- An error some lines further down. -/
def LexError.down (lines : Nat) (e : LexError) : LexError := { e with loc := e.loc.down lines }

namespace Scan

/-- A place some lines further down. -/
def Position.down (lines : Nat) (p : Position) : Position := ⟨p.line + lines, p.column⟩

variable (lines : Nat)

theorem Position.after_down (p : Position) (l : Lexeme) : (p.down lines).after l = (p.after l).down lines := by
  unfold after
  split_ifs
  · simp only [down, mk.injEq, and_true]
    ring
  · rfl

theorem Position.afterAll_down (p : Position) (ls : List Lexeme) :
    (p.down lines).afterAll ls = (p.afterAll ls).down lines := by
  induction ls generalizing p with
  | nil => rfl
  | cons l ls ih =>
    have hrest := ih (p.after l)
    rw [← Position.after_down] at hrest
    exact hrest

/-- Behind a text and a newline, a line starts that is further down by the lines of the text. -/
theorem Position.after_newline {a : Text} {ls : List Lexeme} (hls : ∀ l ∈ ls, l.IsLine)
    (ha : ls.flatMap Lexeme.text = a) :
    (afterAll {} ls).after ⟨.newline, [0x0A]⟩ = down (1 + a.count 0x0A) {} := by
  rw [afterAll_eq_behind hls, ha]
  simp only [after, behind, down, if_true, mk.injEq, and_true]
  push_cast
  ring

theorem located_down (file : Text) (p : Position) (id : Nat) (ls : List Lexeme) :
    located file (p.down lines) id ls = (located file p id ls).map (Token.down lines) := by
  induction ls generalizing p id with
  | nil => rfl
  | cons l ls ih =>
    rw [located, located, Position.after_down, ih, List.map_cons]
    rfl

theorem errorAt?_down (file : Text) (p : Position) (rest : Text) :
    errorAt? file (p.down lines) rest = (errorAt? file p rest).map (LexError.down lines) := by
  cases rest <;> rfl

theorem anonymous_located (file : Text) (p : Position) (id id' : Nat) (ls : List Lexeme) :
    (located file p id ls).map Token.anonymous = (located file p id' ls).map Token.anonymous := by
  induction ls generalizing p id id' with
  | nil => rfl
  | cons l ls ih =>
    rw [located, located, List.map_cons, List.map_cons, ih (p.after l) (id + 1) (id' + 1)]
    rfl

end Scan

/-! ## Tokens of two texts -/

namespace Token

/-- The tokens of a text before operations are reduced, up to where the scan stops. -/
def unreduced (d : Dialect) (file text : Text) : List Token := located file {} 0 (lexemes d text).1

variable {d : Dialect}

/-- A text is accepted if the scan reads all of it. -/
theorem error_tokenize_eq_none {file text : Text} : (tokenize d file text).error = none ↔ (lexemes d text).2 = [] :=
  errorAt?_eq_none

theorem tokens_tokenize (d : Dialect) (file text : Text) : (tokenize d file text).tokens =
    if (lexemes d text).2 = [] then reduce d (unreduced d file text) else unreduced d file text := by
  simp only [tokenize, Scanned.ofTokens, unreduced, Option.isNone_iff_eq_none, errorAt?_eq_none]

theorem isInert_down (d : Dialect) (lines : Nat) : IsInert d (down lines) where
  kind _ := rfl
  text _ := rfl
  token r t := by
    have hjoin : join (r.span.map (down lines) ++ [t.down lines]) = join (r.span ++ [t]) := by
      rw [join_append, join_append, join_map (f := down lines) _ fun _ => rfl]
      rfl
    have hreaches : ((t.down lines).loc.line = (r.map (down lines)).opening.loc.line ∧
        (r.map (down lines)).opening.loc.stop < (t.down lines).loc.stop) ↔
          t.loc.line = r.opening.loc.line ∧ r.opening.loc.stop < t.loc.stop := and_congr_left' (add_left_inj _)
    rw [Redex.token, Redex.token]
    by_cases h : t.loc.line = r.opening.loc.line ∧ r.opening.loc.stop < t.loc.stop
    · rw [if_pos h, if_pos (hreaches.2 h), Redex.map, hjoin]
      rfl
    · rw [if_neg h, if_neg (mt hreaches.1 h), Redex.map, hjoin]
      rfl

/-- Tokens that differ in numbers only still do so further down. -/
theorem map_down_anonymous (lines : Nat) (ts : List Token) :
    (ts.map (down lines)).map anonymous = (ts.map anonymous).map (down lines) := by
  rw [List.map_map, List.map_map]
  rfl

/-- The tokens before and behind a newline, and the newline itself. -/
theorem located_append_newline (file : Text) {a : Text} {ls : List Lexeme} (hls : ∀ l ∈ ls, l.IsLine)
    (ha : ls.flatMap Lexeme.text = a) (ms : List Lexeme) : ∃ n : Token, n.EndsLine ∧
      located file {} 0 (ls ++ [⟨.newline, [0x0A]⟩]) = located file {} 0 ls ++ [n] ∧
      located file {} 0 (ls ++ ⟨.newline, [0x0A]⟩ :: ms) = located file {} 0 ls ++
        n :: (located file {} (ls.length + 1) ms).map (down (1 + a.count 0x0A)) := by
  refine ⟨_, ⟨rfl, rfl⟩, located_append .., ?_⟩
  rw [located_append, located, Position.after_newline hls ha, located_down, Nat.zero_add]

/-- The tokens of two texts with a newline between them: those of the first text with its newline, and those of the
second one, further down by the lines of the first. If the second text is refused, no operation is reduced, and the
error is the one of the second text, further down as well. -/
theorem tokenize_append_newline (hd : d.IsLinewise) (file a b : Text)
    (ha : (tokenize d file (a ++ [0x0A])).error = none) :
    (tokenize d file (a ++ 0x0A :: b)).error = (tokenize d file b).error.map (LexError.down (1 + a.count 0x0A)) ∧
      (tokenize d file (a ++ 0x0A :: b)).tokens.map anonymous =
        ((if (tokenize d file b).error = none then (tokenize d file (a ++ [0x0A])).tokens
          else unreduced d file (a ++ [0x0A])) ++
          (tokenize d file b).tokens.map (down (1 + a.count 0x0A))).map anonymous := by
  have hstop : (lexemes d a).2 = [] := stop_of_append_newline hd (error_tokenize_eq_none.1 ha)
  have hscan : ∀ rest, lexemes d (a ++ 0x0A :: rest) =
      ((lexemes d a).1 ++ ⟨.newline, [0x0A]⟩ :: (lexemes d rest).1, (lexemes d rest).2) :=
    fun rest => (lexemes_append_newline hd a rest).trans (if_pos hstop)
  have htext := flatMap_lexemes d a
  rw [hstop, List.append_nil] at htext
  have hlines : ∀ l ∈ (lexemes d a).1, l.IsLine := fun l hl => isLine_of_mem hd hl
  have hbehind : Position.afterAll {} ((lexemes d a).1 ++ ⟨.newline, [0x0A]⟩ :: (lexemes d b).1) =
      (Position.afterAll {} (lexemes d b).1).down (1 + a.count 0x0A) := by
    rw [Position.afterAll_append, ← Position.afterAll_down, ← Position.after_newline hlines htext]
    rfl
  have herror : (tokenize d file (a ++ 0x0A :: b)).error =
      (tokenize d file b).error.map (LexError.down (1 + a.count 0x0A)) := by
    rw [tokenize, hscan, tokenize]
    simp only [Scanned.ofTokens]
    rw [hbehind, errorAt?_down]
  refine ⟨herror, ?_⟩
  obtain ⟨n, hn, hfirst, hboth⟩ := located_append_newline file hlines htext (lexemes d b).1
  have hline : unreduced d file (a ++ [0x0A]) = unreduced d file a ++ [n] := by
    rw [unreduced, hscan]
    exact hfirst
  have hall : unreduced d file (a ++ 0x0A :: b) = unreduced d file a ++
      n :: (located file {} ((lexemes d a).1.length + 1) (lexemes d b).1).map (down (1 + a.count 0x0A)) := by
    rw [unreduced, hscan]
    exact hboth
  -- Behind the first text, only the numbers of the tokens go on.
  have hnumbers := anonymous_located file {} ((lexemes d a).1.length + 1) 0 (lexemes d b).1
  have hrest : (lexemes d (a ++ 0x0A :: b)).2 = (lexemes d b).2 := by rw [hscan]
  rw [tokens_tokenize d file b, tokens_tokenize d file (a ++ [0x0A]), if_pos (error_tokenize_eq_none.1 ha),
    tokens_tokenize, hrest, hall, hline]
  by_cases haccepted : (lexemes d b).2 = []
  · rw [if_pos (error_tokenize_eq_none.2 haccepted), if_pos haccepted, if_pos haccepted,
      TokensAlike.reduce_append_newline d hn, TokensAlike.reduce_append_newline d hn, reduce_map (isInert_down d _)]
    simp only [List.map_append, List.map_cons, map_down_anonymous]
    rw [← reduce_anonymous d (located ..), hnumbers, reduce_anonymous]
    simp [unreduced, reduce]
  · rw [if_neg (mt error_tokenize_eq_none.1 haccepted), if_neg haccepted, if_neg haccepted]
    simp only [List.map_append, List.map_cons, map_down_anonymous, hnumbers]
    simp [unreduced]

/-- An operation, and in the line below it a bracket that is left open. -/
def openSource : Text := "LDA #(2*3)\nX (1"

theorem tokenize_append_newline_open :
    Mos6502.dialect.IsLinewise ∧ (tokenize Mos6502.dialect "a.s" (openSource ++ [0x0A])).error = none ∧
      (tokenize Mos6502.dialect "a.s" (openSource ++ 0x0A :: ("-1)" : Text))).tokens.map anonymous =
        ((tokenize Mos6502.dialect "a.s" (openSource ++ [0x0A])).tokens ++
          (tokenize Mos6502.dialect "a.s" "-1)").tokens.map (down 2)).map anonymous ∧
      (tokenize Mos6502.dialect "a.s" (openSource ++ 0x0A :: ("\tX é" : Text))).error =
        some ⟨⟨"a.s", 3, 4, 5⟩, "é"⟩ := by
  have hd : Mos6502.dialect.IsLinewise := ⟨by decide, by decide⟩
  have ha : (tokenize Mos6502.dialect "a.s" (openSource ++ [0x0A])).error = none := by decide +kernel
  obtain ⟨-, htokens⟩ := tokenize_append_newline hd "a.s" openSource "-1)" ha
  rw [if_pos (by decide +kernel)] at htokens
  obtain ⟨herror, -⟩ := tokenize_append_newline hd "a.s" openSource "\tX é" ha
  exact ⟨hd, ha, htokens, herror.trans (by decide +kernel)⟩

end Token

end EightBit
