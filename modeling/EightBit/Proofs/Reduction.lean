import Mathlib
import EightBit.Proofs.Expression

/-!
# Reduction of constant expressions

A written tree of operations is reduced to one token from the inside out, with the value that its operations have in
the integers. Blanks change nothing, except that a percent sign and a divisor of binary digits right behind it are
one binary numeral; then no operation is found.

* `Mos6502.Spaced.foldl_shift`: what the tokens of a tree leave on a stack.
* `Mos6502.Spaced.toOption_valueIn`: the value of a tree.
* `Mos6502.Expression.tokenize_operation`: a tree with single blanks is one expression.
* `Mos6502.Spaced.tokenize_iff_not_clashes`: so is one with any blanks, exactly if it does not clash.
-/

namespace EightBit

open Scan

/-! ## Stacks of tokens -/

/-- A token without its place and its number. -/
def Token.bare (t : Token) : Token := { t with loc := {}, id := 0 }

theorem Scan.map_bare_located (file : Text) (p : Position) (id : Nat) (ls : List Lexeme) :
    (located file p id ls).map Token.bare = ls.map Lexeme.token := by
  induction ls generalizing p id with
  | nil => rfl
  | cons l ls ih =>
    rw [located, List.map_cons, ih]
    rfl

namespace Token

theorem kind_of_bare {t u : Token} (h : t.bare = u) : t.kind = u.kind := h ▸ rfl

theorem text_of_bare {t u : Token} (h : t.bare = u) : t.text = u.text := h ▸ rfl

theorem valueIn_of_bare {t u : Token} (h : t.bare = u) (d : Dialect) : t.valueIn d = u.valueIn d := h ▸ rfl

/-- The blanks above a token are passed over. -/
theorem popVisible_append {gap : List Token} (hgap : ∀ u ∈ gap, u.isSpace) {t : Token} (ht : t.isSpace = false)
    (below : List Token) : popVisible (gap.reverse ++ t :: below) = some (t, t :: gap, below) := by
  have hspace : ∀ u ∈ gap.reverse, u.isSpace := fun u hu => hgap u (List.mem_reverse.1 hu)
  rw [popVisible, List.dropWhile_append_of_pos hspace, List.takeWhile_append_of_pos hspace]
  simp [ht]

theorem isSpace_of_isConstant {t : Token} (h : t.kind.isConstant) : t.isSpace = false := by
  cases hkind : t.kind <;> simp [TokenKind.isConstant, isSpace, TokenKind.isSpace, hkind] at h ⊢

section Redex

variable {u₀ u₁ u₂ u₃ : List Token} (hu₀ : ∀ u ∈ u₀, u.isSpace) (hu₁ : ∀ u ∈ u₁, u.isSpace)
  (hu₂ : ∀ u ∈ u₂, u.isSpace) (hu₃ : ∀ u ∈ u₃, u.isSpace)

include hu₃

/-- Nothing is reduced if no constant stands before the closing bracket. -/
theorem redex?_of_right {r : Token} (hspace : r.isSpace = false) (hr : r.kind.isConstant = false)
    (below : List Token) : redex? (u₃.reverse ++ r :: below) = none := by
  simp [redex?, popVisible_append hu₃ hspace, hr]

include hu₂

/-- Nothing is reduced if no operator stands before the right operand. -/
theorem redex?_of_operator {r o : Token} (hr : r.kind.isConstant) (hspace : o.isSpace = false)
    (ho : Operator.ofText? o.text = none) (below : List Token) :
    redex? (u₃.reverse ++ r :: (u₂.reverse ++ o :: below)) = none := by
  simp [redex?, popVisible_append hu₃ (isSpace_of_isConstant hr), popVisible_append hu₂ hspace, hr, ho]

include hu₁

/-- Nothing is reduced if no constant stands before the operator. -/
theorem redex?_of_left {r o l : Token} {op : Operator} (hr : r.kind.isConstant) (hspace : o.isSpace = false)
    (ho : Operator.ofText? o.text = some op) (hlspace : l.isSpace = false) (hl : l.kind.isConstant = false)
    (below : List Token) :
    redex? (u₃.reverse ++ r :: (u₂.reverse ++ o :: (u₁.reverse ++ l :: below))) = none := by
  simp [redex?, popVisible_append hu₃ (isSpace_of_isConstant hr), popVisible_append hu₂ hspace,
    popVisible_append hu₁ hlspace, hr, ho, hl]

include hu₀

/-- A bracketed operation on two constants is found, whatever blanks stand in it. -/
theorem redex?_operation {t r o l : Token} {op : Operator} (hr : r.kind.isConstant) (hospace : o.isSpace = false)
    (ho : Operator.ofText? o.text = some op) (hl : l.kind.isConstant) (htspace : t.isSpace = false)
    (ht : t.text = ("(" : Text)) (below : List Token) :
    redex? (u₃.reverse ++ r :: (u₂.reverse ++ o :: (u₁.reverse ++ l :: (u₀.reverse ++ t :: below)))) =
      some (⟨l, op, r, t, t :: u₀ ++ l :: u₁ ++ o :: u₂ ++ r :: u₃⟩, below) := by
  simp [redex?, popVisible_append hu₃ (isSpace_of_isConstant hr), popVisible_append hu₂ hospace,
    popVisible_append hu₁ (isSpace_of_isConstant hl), popVisible_append hu₀ htspace, hr, ho, hl, ht]

end Redex

/-- What is popped from a stack: the top of it but for blanks. -/
theorem exists_of_popVisible {stack span below : List Token} {t : Token}
    (h : popVisible stack = some (t, span, below)) :
    ∃ gap : List Token, (∀ u ∈ gap, u.isSpace) ∧ t.isSpace = false ∧ stack = gap.reverse ++ t :: below ∧
      span = t :: gap := by
  unfold popVisible at h
  split at h
  next => cases h
  next t' below' hdrop =>
    cases h
    refine ⟨(stack.takeWhile isSpace).reverse, fun u hu => ?_, ?_, ?_, rfl⟩
    · exact List.mem_takeWhile_imp (List.mem_reverse.1 hu)
    · have hhead := List.head_dropWhile_not isSpace (l := stack) (by simp [hdrop])
      simpa [hdrop] using hhead
    · rw [List.reverse_reverse, ← hdrop, List.takeWhile_append_dropWhile]

/-- A bracketed operation with the tokens that it consists of. -/
structure Redex.IsOperation (r : Redex) (u₀ u₁ u₂ u₃ : List Token) (o : Token) : Prop where
  blanks : ∀ u ∈ u₀ ++ u₁ ++ u₂ ++ u₃, u.isSpace
  opening : r.opening.text = ("(" : Text)
  left : r.left.kind.isConstant
  operator : Operator.ofText? o.text = some r.op
  right : r.right.kind.isConstant
  span : r.span = r.opening :: u₀ ++ r.left :: u₁ ++ o :: u₂ ++ r.right :: u₃

/-- What is found on a stack stands there. -/
theorem exists_of_redex? {stack below : List Token} {r : Redex} (h : redex? stack = some (r, below)) :
    (∃ u₀ u₁ u₂ u₃ o, r.IsOperation u₀ u₁ u₂ u₃ o) ∧ stack.reverse = below.reverse ++ r.span := by
  simp only [redex?, Option.bind_eq_bind, Option.bind_eq_some_iff, Option.guard_eq_some', beq_iff_eq] at h
  obtain ⟨⟨right, _, _⟩, hright, _, hrconstant, ⟨o, _, _⟩, ho, op, hop, ⟨left, _, _⟩, hleft, _, hlconstant,
    ⟨opening, _, _⟩, hopening, _, htext, hresult⟩ := h
  obtain ⟨u₃, hu₃, -, rfl, rfl⟩ := exists_of_popVisible hright
  obtain ⟨u₂, hu₂, -, rfl, rfl⟩ := exists_of_popVisible ho
  obtain ⟨u₁, hu₁, -, rfl, rfl⟩ := exists_of_popVisible hleft
  obtain ⟨u₀, hu₀, -, rfl, rfl⟩ := exists_of_popVisible hopening
  cases hresult
  refine ⟨⟨u₀, u₁, u₂, u₃, o, ?_, htext, hlconstant, hop, hrconstant, by simp⟩, by simp⟩
  simp only [List.mem_append]
  rintro u (((hu | hu) | hu) | hu)
  · exact hu₀ u hu
  · exact hu₁ u hu
  · exact hu₂ u hu
  · exact hu₃ u hu

/-- A token of a bracketed operation is a blank, a constant, the bracket or the operator. -/
theorem Redex.IsOperation.cases {r : Redex} {u₀ u₁ u₂ u₃ : List Token} {o u : Token}
    (h : r.IsOperation u₀ u₁ u₂ u₃ o) (hu : u ∈ r.span) :
    u.isSpace ∨ u.kind.isConstant ∨ u.text = ("(" : Text) ∨ (Operator.ofText? u.text).isSome := by
  have hblanks := h.blanks
  simp only [List.mem_append] at hblanks
  rw [h.span] at hu
  simp only [List.mem_append, List.mem_cons] at hu
  rcases hu with (((rfl | hu) | rfl | hu) | rfl | hu) | rfl | hu
  · exact .inr (.inr (.inl h.opening))
  · exact .inl (hblanks u (.inl (.inl (.inl hu))))
  · exact .inr (.inl h.left)
  · exact .inl (hblanks u (.inl (.inl (.inr hu))))
  · exact .inr (.inr (.inr (by simp [h.operator])))
  · exact .inl (hblanks u (.inl (.inr hu)))
  · exact .inr (.inl h.right)
  · exact .inl (hblanks u (.inr hu))

theorem shift_of_ne {t : Token} (ht : t.text ≠ (")" : Text)) (d : Dialect) (stack : List Token) :
    shift d stack t = t :: stack := by
  simp [shift, ht]

theorem shift_of_redex? {t : Token} {stack : List Token} (h : redex? stack = none) (d : Dialect) :
    shift d stack t = t :: stack := by
  rw [shift, h]
  split_ifs <;> rfl

/-- What is kept where a bracketed operation is replaced by its expression is kept by reduction. -/
theorem reduce_induction {d : Dialect} {P : List Token → Prop}
    (hstep : ∀ {xs ys : List Token} {r : Redex} {t : Token}, (∃ u₀ u₁ u₂ u₃ o, r.IsOperation u₀ u₁ u₂ u₃ o) →
      t.text = (")" : Text) → P (xs ++ r.span ++ t :: ys) → P (xs ++ r.token d t :: ys))
    {ts : List Token} (h : P ts) : P (reduce d ts) := by
  -- The stack holds what the tokens read so far were reduced to.
  have hfold : ∀ stack : List Token, P (stack.reverse ++ ts) → P (ts.foldl (shift d) stack).reverse := by
    clear h
    induction ts with
    | nil =>
      intro stack h
      simpa using h
    | cons t ts ih =>
      intro stack h
      refine ih _ ?_
      have hpush : P ((t :: stack).reverse ++ ts) := by simpa using h
      unfold shift
      split_ifs with htext
      · split
        next r below hredex =>
          obtain ⟨hoperation, hstack⟩ := exists_of_redex? hredex
          rw [hstack] at h
          simpa using hstep hoperation (beq_iff_eq.1 htext) h
        next => exact hpush
      · exact hpush
  exact hfold [] h

end Token

namespace Mos6502

open Token

/-! ## Texts that are no operators -/

/-- The operators are single symbols and two arrows in the same direction. -/
theorem operator_text_cases (op : Operator) :
    op.text = [0x3C, 0x3C] ∨ op.text = [0x3E, 0x3E] ∨
      ∃ b ∈ ([0x2B, 0x2D, 0x2A, 0x2F, 0x25, 0x26, 0x7C, 0x5E] : List UInt8), op.text = [b] := by
  cases op <;> decide

theorem ofText?_eq_none {t : Text} (h : ∀ op : Operator, op.text ≠ t) : Operator.ofText? t = none := by
  rw [Operator.ofText?, List.find?_eq_none]
  intro op _ heq
  exact h op (by simpa using heq)

theorem ofText?_operator (op : Operator) : Operator.ofText? op.text = some op ∧ op.text ≠ (")" : Text) := by
  cases op <;> decide

theorem Constant.ofText?_text (c : Constant) : Operator.ofText? c.text = none := by
  refine ofText?_eq_none fun op heq => ?_
  obtain ⟨b, more, htext, hb⟩ := c.text_cases
  have hcases := operator_text_cases op
  rw [heq, htext] at hcases
  rcases hb with hb | ⟨hb, hmore⟩
  · have hrange := toNat_of_isDigit hb
    simp only [List.cons.injEq, List.mem_cons, List.not_mem_nil, or_false, ← UInt8.toNat_inj,
      UInt8.reduceToNat] at hcases
    rcases hcases with ⟨hb, -⟩ | ⟨hb, -⟩ | ⟨b', hb', hb, -⟩ <;> omega
  · simp only [List.mem_cons, List.not_mem_nil, or_false] at hb
    rcases hb with rfl | rfl | rfl | rfl | rfl <;> simp [hmore] at hcases

theorem Constant.text_ne_closing (c : Constant) : c.text ≠ (")" : Text) := by
  have hclosing : (")" : Text) = [0x29] := by decide
  obtain ⟨b, more, htext, hb⟩ := c.text_cases
  rw [hclosing, htext]
  rintro ⟨⟩
  revert hb
  decide

theorem Spaced.ofText?_text (s : Spaced) : Operator.ofText? s.text = none := by
  cases s with
  | constant c => exact c.ofText?_text
  | operation gaps left op right =>
    refine ofText?_eq_none fun op' heq => ?_
    have hcases := operator_text_cases op'
    have hopening : ("(" : Text) = [0x28] := by decide
    rw [heq] at hcases
    simp [text, hopening] at hcases

/-! ## Reducing a tree -/

namespace Spaced

/-- The token that a tree is reduced to, without its place and its number. -/
def token : Spaced → Token
  | constant c => c.lexeme.token
  | operation gaps left op right =>
    { kind := .expression
      text := (operation gaps left op right).text
      outcome := some (.ofExcept (evaluate dialect left.token op right.token)) }

theorem text_token (s : Spaced) : s.token.text = s.text := by
  cases s <;> rfl

theorem isConstant_token (s : Spaced) : s.token.kind.isConstant := by
  cases s with
  | constant c => cases c <;> rfl
  | operation gaps left op right => rfl

end Spaced

/-- The tokens of blanks are blanks, and are put on a stack as they are. -/
theorem Blanks.of_map_bare {bs : Blanks} {us : List Token} (h : us.map bare = bs.lexemes.map Lexeme.token) :
    (∀ u ∈ us, u.isSpace) ∧ join us = bs.text ∧
      ∀ stack, us.foldl (shift dialect) stack = us.reverse ++ stack := by
  unfold Blanks.lexemes at h
  split_ifs at h with hnil
  · have hus : us = [] := by simpa using h
    simp [hus, hnil]
  · obtain ⟨u, rfl, hu⟩ := List.map_eq_singleton_iff.1 h
    have hne : u.text ≠ (")" : Text) := by
      have hbracket : (")" : Text) = [0x29] := by decide
      rw [text_of_bare hu, hbracket]
      intro htext
      exact absurd (bs.isBlank_of_mem 0x29 (by simp [Lexeme.token] at htext; simp [htext])) (by decide)
    simp [Token.isSpace, kind_of_bare hu, text_of_bare hu, Lexeme.token, TokenKind.isSpace, shift_of_ne hne]

namespace Spaced

/-- The tokens of a bracketed operation, part by part. -/
theorem exists_parts {gaps : Gaps} {left right : Spaced} {op : Operator} {ts : List Token}
    (h : ts.map bare = (operation gaps left op right).lexemes.map Lexeme.token) :
    ∃ t u₀ ls u₁ os u₃ t', ts = t :: (u₀ ++ ls ++ u₁ ++ os ++ u₃ ++ [t']) ∧ t.bare = opening.token ∧
      u₀.map bare = gaps.opening.lexemes.map Lexeme.token ∧ ls.map bare = left.lexemes.map Lexeme.token ∧
      u₁.map bare = gaps.before.lexemes.map Lexeme.token ∧
      os.map bare = (operand gaps op right right.lexemes).map Lexeme.token ∧
      u₃.map bare = gaps.closing.lexemes.map Lexeme.token ∧ t'.bare = closing.token := by
  simp only [lexemes, List.map_cons, List.map_append, List.map_nil, List.map_eq_cons_iff, List.map_eq_append_iff]
    at h
  obtain ⟨t, _, rfl, ht, _, _, rfl, ⟨_, u₃, rfl, ⟨_, os, rfl, ⟨_, u₁, rfl, ⟨u₀, ls, rfl, hu₀, hls⟩, hu₁⟩, hos⟩, hu₃⟩,
    t', _, rfl, ht', hnil⟩ := h
  rw [List.map_eq_nil_iff] at hnil
  subst hnil
  exact ⟨t, u₀, ls, u₁, os, u₃, t', rfl, ht, hu₀, hls, hu₁, hos, hu₃, ht'⟩

/-- The token on top of a stack after the tokens of a tree, and what lies below it: the tree reduced to one token, or
the last bracket of a tree that clashes. -/
def Tops (s : Spaced) (stack : List Token) (t : Token) (below : List Token) : Prop :=
  if s.clashes then t.bare = closing.token else t.bare = s.token ∧ below = stack

theorem Tops.of_clashes {s : Spaced} (hs : s.clashes) {t : Token} (ht : t.bare = closing.token)
    (stack below : List Token) : Tops s stack t below := by
  rwa [Tops, if_pos hs]

section Tops

variable {s : Spaced} {stack below : List Token} {t : Token} (h : Tops s stack t below)

include h

theorem Tops.reduced (hs : s.clashes = false) : t.bare = s.token ∧ below = stack := by
  rwa [Tops, if_neg (by simp [hs])] at h

/-- A tree has become a constant unless it clashes. -/
theorem Tops.isConstant : t.kind.isConstant = !s.clashes := by
  unfold Tops at h
  split_ifs at h with hs
  · rw [kind_of_bare h, hs]
    rfl
  · rw [kind_of_bare h.1, s.isConstant_token, Bool.eq_false_iff.2 hs]
    rfl

theorem Tops.isSpace : t.isSpace = false := by
  unfold Tops at h
  split_ifs at h with hs
  · rw [Token.isSpace, kind_of_bare h]
    rfl
  · exact isSpace_of_isConstant (by rw [kind_of_bare h.1, s.isConstant_token])

theorem Tops.ofText? : Operator.ofText? t.text = none := by
  unfold Tops at h
  split_ifs at h with hs
  · rw [text_of_bare h]
    decide
  · rw [text_of_bare h.1, text_token]
    exact s.ofText?_text

end Tops

/-- A bracketed operation on two reduced trees makes one token. -/
theorem bare_redex {r : Redex} {gaps : Gaps} {left right : Spaced} {u₀ u₁ u₂ u₃ : List Token} {o t : Token}
    (hspan : r.span = r.opening :: u₀ ++ r.left :: u₁ ++ o :: u₂ ++ r.right :: u₃)
    (hopening : r.opening.text = ("(" : Text)) (ho : o.text = r.op.text) (ht : t.text = (")" : Text))
    (hu₀ : join u₀ = gaps.opening.text) (hu₁ : join u₁ = gaps.before.text) (hu₂ : join u₂ = gaps.behind.text)
    (hu₃ : join u₃ = gaps.closing.text) (hl : r.left.bare = left.token) (hr : r.right.bare = right.token) :
    (r.token dialect t).bare = (operation gaps left r.op right).token := by
  have htext : join (r.span ++ [t]) = (operation gaps left r.op right).text := by
    simp [hspan, text, hu₀, hu₁, hu₂, hu₃, hopening, ho, ht, text_of_bare hl, text_of_bare hr, text_token]
  have hvalue : evaluate dialect r.left r.op r.right = evaluate dialect left.token r.op right.token := by
    rw [← hl, ← hr]
    rfl
  rw [token, ← hvalue, ← htext]
  rfl

section Closing

variable {gaps : Gaps} {left right : Spaced} {op : Operator} {t l o r t' : Token} {u₀ u₁ u₂ u₃ : List Token}
  (ht : t.bare = opening.token) (hu₀ : u₀.map bare = gaps.opening.lexemes.map Lexeme.token)
  (hu₁ : u₁.map bare = gaps.before.lexemes.map Lexeme.token)
  (ho : o.bare = (⟨.symbol, op.text⟩ : Lexeme).token)
  (hu₂ : u₂.map bare = gaps.behind.lexemes.map Lexeme.token)
  (hu₃ : u₃.map bare = gaps.closing.lexemes.map Lexeme.token) (ht' : t'.bare = closing.token)

include ht hu₀ hu₁ ho hu₂ hu₃ ht'

/-- A closing bracket reduces an operation on two reduced trees and stays if one of them clashes. -/
theorem shift_closing {stack below below' : List Token} (hclash : clash? gaps op right = none)
    (hleft : Tops left (u₀.reverse ++ t :: stack) l below)
    (hright : Tops right (u₂.reverse ++ o :: (u₁.reverse ++ l :: below)) r below') :
    ∃ t'' below'', shift dialect (u₃.reverse ++ r :: below') t' = t'' :: below'' ∧
      Tops (operation gaps left op right) stack t'' below'' := by
  have hop := (ofText?_operator op).1
  rw [← show o.text = op.text from text_of_bare ho] at hop
  have hospace : o.isSpace = false := by
    rw [Token.isSpace, kind_of_bare ho]
    rfl
  have hspace₀ := (Blanks.of_map_bare hu₀).1
  have hspace₁ := (Blanks.of_map_bare hu₁).1
  have hspace₂ := (Blanks.of_map_bare hu₂).1
  have hspace₃ := (Blanks.of_map_bare hu₃).1
  have hlconstant := hleft.isConstant
  have hrconstant := hright.isConstant
  -- A tree that clashes leaves no constant on the stack, and nothing is found above or below it.
  cases hr : right.clashes with
  | true =>
    rw [hr] at hrconstant
    rw [shift_of_redex? (redex?_of_right hspace₃ hright.isSpace hrconstant below')]
    exact ⟨t', _, rfl, .of_clashes (by simp [clashes, hr]) ht' _ _⟩
  | false =>
    rw [hr] at hrconstant
    obtain ⟨hrbare, rfl⟩ := hright.reduced hr
    cases hl : left.clashes with
    | true =>
      rw [hl] at hlconstant
      rw [shift_of_redex? (redex?_of_left hspace₁ hspace₂ hspace₃ hrconstant hospace hop hleft.isSpace hlconstant
        below)]
      exact ⟨t', _, rfl, .of_clashes (by simp [clashes, hl]) ht' _ _⟩
    | false =>
      rw [hl] at hlconstant
      obtain ⟨hlbare, rfl⟩ := hleft.reduced hl
      have htspace : t.isSpace = false := by
        rw [Token.isSpace, kind_of_bare ht]
        rfl
      rw [shift, if_pos (by rw [text_of_bare ht']; rfl), redex?_operation hspace₀ hspace₁ hspace₂ hspace₃ hrconstant
        hospace hop hlconstant htspace (text_of_bare ht) stack]
      refine ⟨_, _, rfl, ?_⟩
      rw [Tops, if_neg (by simp [clashes, hclash, hl, hr])]
      exact ⟨bare_redex rfl (text_of_bare ht) (text_of_bare ho) (text_of_bare ht') (Blanks.of_map_bare hu₀).2.1
        (Blanks.of_map_bare hu₁).2.1 (Blanks.of_map_bare hu₂).2.1 (Blanks.of_map_bare hu₃).2.1 hlbare hrbare, rfl⟩

end Closing

/-- The tokens of a tree leave one token on a stack, unless the tree clashes; then its last bracket stays. -/
theorem foldl_shift (s : Spaced) {ts : List Token} (hts : ts.map bare = s.lexemes.map Lexeme.token)
    (stack : List Token) : ∃ t below, ts.foldl (shift dialect) stack = t :: below ∧ Tops s stack t below := by
  induction s generalizing ts stack with
  | constant c =>
    obtain ⟨t, rfl, ht⟩ := List.map_eq_singleton_iff.1 hts
    have hne : t.text ≠ (")" : Text) := by
      rw [text_of_bare ht]
      exact c.text_ne_closing
    exact ⟨t, stack, shift_of_ne hne dialect stack, ht, rfl⟩
  | operation gaps left op right ihleft ihright =>
    obtain ⟨t, u₀, ls, u₁, os, u₃, t', rfl, ht, hu₀, hls, hu₁, hos, hu₃, ht'⟩ := exists_parts hts
    obtain ⟨-, -, hfold₀⟩ := Blanks.of_map_bare hu₀
    obtain ⟨hspace₁, -, hfold₁⟩ := Blanks.of_map_bare hu₁
    obtain ⟨hspace₃, -, hfold₃⟩ := Blanks.of_map_bare hu₃
    have hopening : shift dialect stack t = t :: stack := shift_of_ne (by rw [text_of_bare ht]; decide) _ _
    obtain ⟨l, below, hl, hleft⟩ := ihleft hls (u₀.reverse ++ t :: stack)
    simp only [List.foldl_cons, List.foldl_append, List.foldl_nil, hopening, hfold₀, hl, hfold₁, hfold₃]
    rw [operand] at hos
    cases hclash : clash? gaps op right with
    | some ds =>
      -- The left operand stands where the operator would have to be.
      rw [hclash] at hos
      obtain ⟨r, rfl, hr⟩ := List.map_eq_singleton_iff.1 hos
      have hconstant : r.kind.isConstant := by
        rw [kind_of_bare hr]
        rfl
      have hne : r.text ≠ (")" : Text) := by
        have hclosing : (")" : Text) = [0x29] := by decide
        rw [text_of_bare hr, hclosing]
        simp [Lexeme.token, Digits.text]
      rw [List.foldl_cons, List.foldl_nil, shift_of_ne hne,
        shift_of_redex? (redex?_of_operator hspace₁ hspace₃ hconstant hleft.isSpace hleft.ofText? below)]
      exact ⟨t', _, rfl, .of_clashes (by simp [clashes, hclash]) ht' _ _⟩
    | none =>
      rw [hclash] at hos
      simp only [List.map_cons, List.map_append, List.map_eq_cons_iff, List.map_eq_append_iff] at hos
      obtain ⟨o, _, rfl, ho, u₂, rs, rfl, hu₂, hrs⟩ := hos
      obtain ⟨-, -, hfold₂⟩ := Blanks.of_map_bare hu₂
      have hne : o.text ≠ (")" : Text) := by
        rw [text_of_bare ho]
        exact (ofText?_operator op).2
      obtain ⟨r, below', hr, hright⟩ := ihright hrs (u₂.reverse ++ o :: (u₁.reverse ++ l :: below))
      rw [List.foldl_cons, List.foldl_append, shift_of_ne hne, hfold₂, hr]
      exact shift_closing ht hu₀ hu₁ ho hu₂ hu₃ ht' hclash hleft hright

/-- The tokens of a written tree: one, unless the tree clashes. -/
theorem tokenize_text (file : Text) (s : Spaced) :
    ∃ t below, tokenize dialect file s.text = ⟨(t :: below).reverse, none⟩ ∧ Tops s [] t below := by
  obtain ⟨t, below, hfold, htops⟩ := s.foldl_shift (map_bare_located file {} 0 s.lexemes) []
  refine ⟨t, below, ?_, htops⟩
  have hreads : ReadsFrom dialect {} s.lexemes [] := (s.readsBetween rfl {} rfl).1
  rw [← flatMap_lexemes, tokenize, lexemes_of_readsFrom hreads]
  simp [errorAt?, Scanned.ofTokens, reduce, hfold]

end Spaced

/-! ## Values -/

/-- The outcome of an expression whose operation has a given result. -/
def checked (text : Text) : Except ArithmeticError Int → Except ValueError Int
  | .error e => .error (.expression text (some e))
  | .ok n => if isInt64 n then .ok n else .error (.expression text none)

/-- The outcome of an operation is that of its operands, and of their values if they have some. -/
theorem evaluate_eq (left right : Token) (op : Operator) :
    evaluate dialect left op right = left.valueIn dialect >>= fun a => right.valueIn dialect >>= fun b =>
      checked (("(" : Text) ++ left.text ++ op.text ++ right.text ++ (")" : Text)) (op.apply a b) := by
  rfl

namespace Spaced

theorem valueIn_operation (gaps : Gaps) (left : Spaced) (op : Operator) (right : Spaced) :
    (operation gaps left op right).token.valueIn dialect = evaluate dialect left.token op right.token := by
  simp [token, valueIn]

end Spaced

/-! ## Trees with single blanks -/

namespace Expression

theorem text_spaced (e : Expression) : e.spaced.text = e.text := by
  induction e with
  | constant c => rfl
  | operation left op right ihleft ihright =>
    have hblank : (" " : Text) = [0x20] := by decide
    simp [spaced, Spaced.text, text, Gaps.single, ihleft, ihright, hblank]

theorem clashes_spaced (e : Expression) : e.spaced.clashes = false := by
  induction e with
  | constant c => rfl
  | operation left op right ihleft ihright =>
    simp [spaced, Spaced.clashes, Spaced.clash?, Gaps.single, ihleft, ihright]

end Expression

/-! ## Trees with any blanks -/

/-- A text without its blanks. -/
def visible (t : Text) : Text := t.filter fun b => !Scan.isBlank b

/-- An error without the blanks of the expression that it quotes. -/
def unspaced : ValueError → ValueError
  | .notConstant text => .notConstant text
  | .expression text cause => .expression (visible text) cause

@[simp] theorem visible_append (t u : Text) : visible (t ++ u) = visible t ++ visible u :=
  List.filter_append t u

@[simp] theorem Blanks.visible_text (bs : Blanks) : visible bs.text = [] := by
  rw [visible, List.filter_eq_nil_iff]
  intro b hb
  simp [bs.isBlank_of_mem b hb]

theorem mapError_bind {ε ε' α β : Type} (f : ε → ε') (x : Except ε α) (g : α → Except ε β) :
    (x >>= g).mapError f = x.mapError f >>= fun a => (g a).mapError f := by
  cases x <;> rfl

theorem mapError_checked {text text' : Text} (h : visible text = visible text') (x : Except ArithmeticError Int) :
    (checked text x).mapError unspaced = (checked text' x).mapError unspaced := by
  cases x with
  | error e => simp [checked, Except.mapError, unspaced, h]
  | ok n =>
    simp only [checked]
    split_ifs
    · rfl
    · simp [Except.mapError, unspaced, h]

namespace Spaced

/-- Trees that differ in blanks only are written alike but for blanks. -/
theorem visible_text (s : Spaced) : visible s.text = visible s.tree.spaced.text := by
  induction s with
  | constant c => rfl
  | operation gaps left op right ihleft ihright => simp [text, tree, Expression.spaced, ihleft, ihright]

/-- Blanks change neither the value of a tree nor why it has none. -/
theorem mapError_valueIn (s : Spaced) :
    (s.token.valueIn dialect).mapError unspaced = (s.tree.spaced.token.valueIn dialect).mapError unspaced := by
  induction s with
  | constant c => rfl
  | operation gaps left op right ihleft ihright =>
    have hchecked : ∀ x, (checked (("(" : Text) ++ left.token.text ++ op.text ++ right.token.text ++ (")" : Text))
        x).mapError unspaced = (checked (("(" : Text) ++ left.tree.spaced.token.text ++ op.text ++
          right.tree.spaced.token.text ++ (")" : Text)) x).mapError unspaced := by
      refine mapError_checked ?_
      simp [text_token, left.visible_text, right.visible_text]
    rw [tree, Expression.spaced, valueIn_operation, valueIn_operation, evaluate_eq, evaluate_eq]
    simp only [mapError_bind, ihleft, ihright, hchecked]

/-- A bracketed operation with any blanks between its lexemes is tokenized to one expression, with the value or the
failure that it has with single blanks, exactly if nowhere in it a percent sign and an unsigned numeral of binary
digits stand together without a blank. -/
theorem tokenize_iff_not_clashes (file : Text) (gaps : Gaps) (left : Spaced) (op : Operator) (right : Spaced) :
    (∃ t u, tokenize dialect file (operation gaps left op right).text = ⟨[t], none⟩ ∧ t.kind = .expression ∧
      tokenize dialect file (operation gaps left op right).tree.text = ⟨[u], none⟩ ∧
      (t.valueIn dialect).mapError unspaced = (u.valueIn dialect).mapError unspaced) ↔
      (operation gaps left op right).clashes = false := by
  obtain ⟨t, below, htokens, htops⟩ := (operation gaps left op right).tokenize_text file
  constructor
  · rintro ⟨t', u, htokens', hkind, -, -⟩
    rw [htokens, Scanned.mk.injEq, List.reverse_eq_iff] at htokens'
    obtain ⟨⟨rfl, -⟩⟩ := htokens'.1
    -- The closing bracket of a tree that clashes is no expression.
    have hconstant := htops.isConstant
    rw [hkind] at hconstant
    simpa [TokenKind.isConstant] using hconstant.symm
  · intro hclash
    obtain ⟨ht, rfl⟩ := htops.reduced hclash
    obtain ⟨u, below, htokens', htops'⟩ := (operation gaps left op right).tree.spaced.tokenize_text file
    obtain ⟨hu, rfl⟩ := htops'.reduced (Expression.clashes_spaced _)
    rw [Expression.text_spaced] at htokens'
    refine ⟨t, u, htokens, kind_of_bare ht, htokens', ?_⟩
    rw [valueIn_of_bare ht, valueIn_of_bare hu, mapError_valueIn]

/-- A remainder by one written without blanks is no expression, though it is one with blanks. -/
theorem tokenize_remainder_by_one : ∃ gaps left right,
    (operation gaps left .mod right).text = ("(5%1)" : Text) ∧
      (tokenize dialect [] (operation gaps left .mod right).text).tokens.map Token.lexeme =
        [⟨.symbol, "("⟩, ⟨.udec, "5"⟩, ⟨.bin, "%1"⟩, ⟨.symbol, ")"⟩] ∧
      (tokenize dialect [] (operation gaps left .mod right).tree.text).tokens.map Token.lexeme =
        [⟨.expression, "(5 % 1)"⟩] := by
  refine ⟨⟨⟨[], by simp⟩, ⟨[], by simp⟩, ⟨[], by simp⟩, ⟨[], by simp⟩⟩,
    .constant (.udec ⟨0x35, [], by decide, by simp⟩), .constant (.udec ⟨0x31, [], by decide, by simp⟩), ?_, ?_, ?_⟩
  · decide
  · decide
  · decide

end Spaced

end Mos6502

end EightBit
