import Mathlib
import EightBit.Proofs.Comments
import EightBit.Proofs.LineEnd
import EightBit.Proofs.Reduction

/-!
# Lines up to the blanks at their ends

Texts, lexemes and tokens that are the same line by line, but for blanks before the ends of the lines. Scanning
texts that are alike yields lexemes that are alike, and so do all later steps on the way to lines of tokens. The
last line has no end, and there nothing may differ.

* `LinesAlike`: the relation, for elements of any kind; `TextsAlike`, `LexemesAlike`, `TokensAlike`.
* `Scan.lexemesAlike_lexemesFrom`: scanning texts that are alike.
* `TokensAlike.reduce`: expressions are reduced alike.
* `TokensAlike.tokenize`, `TokensAlike.pseudoTokenize`: the tokens of texts that are alike.
* `Line.Alike`: the lines of tokens that are alike.
-/

namespace EightBit

/-- Two sequences whose lines are the same in order, but for blanks before the ends of the lines. -/
inductive LinesAlike {α : Type} (same : α → α → Prop) (blank ending : α → Prop) : List α → List α → Prop
  | last {as bs : List α} (h : List.Forall₂ same as bs) : LinesAlike same blank ending as bs
  | line {as bs xs ys cs ds : List α} {a b : α} (h : List.Forall₂ same as bs) (hxs : ∀ x ∈ xs, blank x)
    (hys : ∀ y ∈ ys, blank y) (ha : ending a) (hb : ending b) (hrest : LinesAlike same blank ending cs ds) :
    LinesAlike same blank ending (as ++ (xs ++ a :: cs)) (bs ++ (ys ++ b :: ds))

namespace LinesAlike

variable {α β : Type} {same : α → α → Prop} {blank ending : α → Prop} {as bs cs ds : List α}

theorem nil : LinesAlike same blank ending [] [] := .last .nil

theorem prepend (h : List.Forall₂ same as bs) (hrest : LinesAlike same blank ending cs ds) :
    LinesAlike same blank ending (as ++ cs) (bs ++ ds) := by
  cases hrest with
  | last hlast => exact .last (List.rel_append h hlast)
  | line hline hxs hys ha hb hmore =>
    rw [← List.append_assoc, ← List.append_assoc bs]
    exact .line (List.rel_append h hline) hxs hys ha hb hmore

theorem append (h : LinesAlike same blank ending as bs) (hrest : LinesAlike same blank ending cs ds) :
    LinesAlike same blank ending (as ++ cs) (bs ++ ds) := by
  induction h with
  | last hlast => exact prepend hlast hrest
  | line hline hxs hys ha hb _ ih =>
    simp only [List.append_assoc, List.cons_append]
    exact .line hline hxs hys ha hb ih

/-- A line end with the blanks before it. -/
theorem ended {xs ys : List α} {a b : α} (hxs : ∀ x ∈ xs, blank x) (hys : ∀ y ∈ ys, blank y) (ha : ending a)
    (hb : ending b) (hrest : LinesAlike same blank ending cs ds) :
    LinesAlike same blank ending (xs ++ a :: cs) (ys ++ b :: ds) :=
  .line .nil hxs hys ha hb hrest

/-- Sequences that differ nowhere. -/
theorem of_forall₂ (h : List.Forall₂ (fun a b => same a b ∨ ending a ∧ ending b) as bs) :
    LinesAlike same blank ending as bs := by
  induction h with
  | nil => exact nil
  | @cons a b as bs hab _ ih =>
    rcases hab with hsame | ⟨ha, hb⟩
    · exact prepend (.cons hsame .nil) ih
    · have hnone : ∀ x ∈ ([] : List α), blank x := by simp
      exact ended hnone hnone ha hb ih

/-- Induction on elements rather than on lines, where a line end is taken with the blanks before it. -/
theorem elementwise {motive : ∀ as bs : List α, LinesAlike same blank ending as bs → Prop} (nil : motive [] [] nil)
    (cons : ∀ {a b : α} {as bs : List α} (hab : same a b) (h : LinesAlike same blank ending as bs),
      motive as bs h → motive (a :: as) (b :: bs) (prepend (.cons hab .nil) h))
    (ended : ∀ {xs ys : List α} {a b : α} {cs ds : List α} (hxs : ∀ x ∈ xs, blank x) (hys : ∀ y ∈ ys, blank y)
      (ha : ending a) (hb : ending b) (h : LinesAlike same blank ending cs ds),
      motive cs ds h → motive (xs ++ a :: cs) (ys ++ b :: ds) (ended hxs hys ha hb h))
    (h : LinesAlike same blank ending as bs) : motive as bs h := by
  induction h with
  | last h =>
    induction h with
    | nil => exact nil
    | cons hab h ih => exact cons hab (.last h) ih
  | line h hxs hys ha hb hrest ih =>
    induction h with
    | nil => exact ended hxs hys ha hb hrest ih
    | cons hab h ih => exact cons hab (.line h hxs hys ha hb hrest) ih

/-- Elements that are translated one by one. -/
theorem map {same' : β → β → Prop} {blank' ending' : β → Prop} {f : α → β}
    (hsame : ∀ a b, same a b → same' (f a) (f b)) (hblank : ∀ a, blank a → blank' (f a))
    (hending : ∀ a, ending a → ending' (f a)) (h : LinesAlike same blank ending as bs) :
    LinesAlike same' blank' ending' (as.map f) (bs.map f) := by
  have hline : ∀ {as bs : List α}, List.Forall₂ same as bs → List.Forall₂ same' (as.map f) (bs.map f) := by
    intro as bs has
    rw [List.forall₂_map_left_iff, List.forall₂_map_right_iff]
    exact has.imp hsame
  have hblanks : ∀ {xs : List α}, (∀ x ∈ xs, blank x) → ∀ y ∈ xs.map f, blank' y := by
    intro xs hxs y hy
    obtain ⟨x, hx, rfl⟩ := List.mem_map.1 hy
    exact hblank x (hxs x hx)
  induction h with
  | last hlast => exact .last (hline hlast)
  | line has hxs hys ha hb _ ih =>
    simp only [List.map_append, List.map_cons]
    exact .line (hline has) (hblanks hxs) (hblanks hys) (hending _ ha) (hending _ hb) ih

end LinesAlike

/-! ## Texts and lexemes -/

/-- Texts with the same lines up to blanks at their ends. -/
abbrev TextsAlike : Text → Text → Prop := LinesAlike (· = ·) (fun b => Scan.isBlank b) (· = 0x0A)

theorem TextsAlike.refl (t : Text) : TextsAlike t t := .last (List.forall₂_refl t)

/-- Lexemes with the same lines up to blanks at their ends. -/
abbrev LexemesAlike : List Lexeme → List Lexeme → Prop :=
  LinesAlike (fun l m => l = m ∧ l.kind ≠ .newline) (fun l => l.kind = .whitespace ∧ ∀ b ∈ l.text, Scan.isBlank b)
    (· = ⟨.newline, [0x0A]⟩)

namespace Scan

/-- A text without newlines is a text that does not end in a blank, with blanks behind it. -/
theorem exists_isBody {t : Text} (ht : 0x0A ∉ t) :
    ∃ body blanks : Text, IsBody body ∧ (∀ b ∈ blanks, isBlank b) ∧ t = body ++ blanks := by
  induction t using List.reverseRecOn with
  | nil => exact ⟨[], [], ⟨by simp, by simp⟩, by simp, rfl⟩
  | append_singleton t b ih =>
    by_cases hb : isBlank b
    · obtain ⟨body, blanks, hbody, hblanks, rfl⟩ := ih fun h => ht (List.mem_append_left _ h)
      refine ⟨body, blanks ++ [b], hbody, ?_, List.append_assoc ..⟩
      intro c hc
      rcases List.mem_append.1 hc with hc | hc
      · exact hblanks c hc
      · rwa [List.mem_singleton.1 hc]
    · exact ⟨t ++ [b], [], ⟨ht, by simpa using hb⟩, by simp, by simp⟩

/-- Texts that are alike are the same, or start with the same line and go on alike behind it. -/
theorem eq_or_line_of_textsAlike {t u : Text} (h : TextsAlike t u) :
    t = u ∨ ∃ body xs ys t' u' : Text, IsBody body ∧ (∀ b ∈ xs, isBlank b) ∧ (∀ b ∈ ys, isBlank b) ∧
      t = body ++ (xs ++ 0x0A :: t') ∧ u = body ++ (ys ++ 0x0A :: u') ∧ TextsAlike t' u' := by
  cases h with
  | last h => exact .inl (List.forall₂_eq_eq_eq ▸ h)
  | @line as bs xs ys cs ds a b h hxs hys ha hb hrest =>
    obtain rfl : as = bs := List.forall₂_eq_eq_eq ▸ h
    subst ha hb
    refine .inr ?_
    by_cases hnewline : 0x0A ∈ as
    · -- The texts differ in a later line only.
      obtain ⟨first, rest, rfl, hfirst⟩ := List.eq_append_cons_of_mem hnewline
      obtain ⟨body, blanks, hbody, hblanks, rfl⟩ := exists_isBody hfirst
      exact ⟨body, blanks, blanks, rest ++ (xs ++ 0x0A :: cs), rest ++ (ys ++ 0x0A :: ds), hbody, hblanks, hblanks,
        by simp, by simp, .line (List.forall₂_refl rest) hxs hys rfl rfl hrest⟩
    · obtain ⟨body, blanks, hbody, hblanks, rfl⟩ := exists_isBody hnewline
      exact ⟨body, blanks ++ xs, blanks ++ ys, cs, ds, hbody, List.forall_mem_append.2 ⟨hblanks, hxs⟩,
        List.forall_mem_append.2 ⟨hblanks, hys⟩, by simp, by simp, hrest⟩

theorem text_of_next? {d : Dialect} {st : State} {t : Text} {l : Lexeme} (h : next? d st t = some l)
    (hl : l.kind = .newline) : l.text = [0x0A] := by
  obtain ⟨n, hrule, htext⟩ := rule?_of_next? h (by simp [hl]) (by simp [hl])
  rw [hl] at hrule
  have hnewline : newline? t = some n := by simpa using rule?_cases hrule
  obtain ⟨rfl, rest, rfl⟩ := newline?_eq_some hnewline
  exact htext

/-- Every lexeme of a scan was the next one somewhere. -/
theorem exists_next?_of_mem {d : Dialect} {skip : Nat} {st : State} {t : Text} {l : Lexeme}
    (h : l ∈ (lexemesFrom d skip st t).1) : ∃ st t, next? d st t = some l := by
  induction t generalizing skip st with
  | nil => cases h
  | cons b t ih =>
    cases skip with
    | succ skip => exact ih h
    | zero =>
      rw [lexemesFrom] at h
      cases hnext : next? d st (b :: t) with
      | none =>
        rw [hnext] at h
        cases h
      | some m =>
        rw [hnext] at h
        rcases List.mem_cons.1 h with rfl | h
        · exact ⟨st, b :: t, hnext⟩
        · exact ih h

theorem text_of_mem_lexemesFrom {d : Dialect} {skip : Nat} {st : State} {t : Text} {l : Lexeme}
    (hmem : l ∈ (lexemesFrom d skip st t).1) (hl : l.kind = .newline) : l.text = [0x0A] := by
  obtain ⟨st', t', hnext⟩ := exists_next?_of_mem hmem
  exact text_of_next? hnext hl

/-- Scanned lexemes are alike to themselves. -/
theorem lexemesAlike_refl (d : Dialect) (skip : Nat) (st : State) (t : Text) :
    LexemesAlike (lexemesFrom d skip st t).1 (lexemesFrom d skip st t).1 := by
  refine .of_forall₂ (List.forall₂_same.2 fun l hl => ?_)
  by_cases hkind : l.kind = .newline
  · have htext := text_of_mem_lexemesFrom hl hkind
    obtain ⟨kind, text⟩ := l
    cases hkind
    cases htext
    exact .inr ⟨rfl, rfl⟩
  · exact .inl ⟨rfl, hkind⟩

/-- Scans that stop with the same error, or both at the end of their texts. -/
def StopsAlike (rest rest' : Text) : Prop := ∀ file p, errorAt? file p rest = errorAt? file p rest'

/-- Blanks before a newline make a lexeme of their own, and the scan starts anew behind the newline. -/
theorem exists_lexemesFrom_lineEnd (d : Dialect) (st : State) {xs : Text} (hxs : ∀ b ∈ xs, isBlank b) (rest : Text) :
    ∃ gap : List Lexeme, (∀ l ∈ gap, l.kind = .whitespace ∧ ∀ b ∈ l.text, isBlank b) ∧
      lexemesFrom d 0 st (xs ++ 0x0A :: rest) =
        (gap ++ ⟨.newline, [0x0A]⟩ :: (lexemesFrom d 0 {} rest).1, (lexemesFrom d 0 {} rest).2) := by
  have hnewline : ∀ st : State, lexemesFrom d 0 st (0x0A :: rest) =
      (⟨.newline, [0x0A]⟩ :: (lexemesFrom d 0 {} rest).1, (lexemesFrom d 0 {} rest).2) :=
    fun st => ((Reads.newline rest).readsIn st).lexemesFrom_append
  by_cases hempty : xs = []
  · subst hempty
    exact ⟨[], by simp, hnewline st⟩
  · have hread : Reads d ⟨.whitespace, xs⟩ (0x0A :: rest) := .blanks hempty hxs (by rfl)
    refine ⟨[⟨.whitespace, xs⟩], by simpa using hxs, ?_⟩
    rw [(hread.readsIn st).lexemesFrom_append, hnewline]
    rfl

/-- Scanning texts that are alike yields lexemes that are alike, and stops with the same error. -/
theorem lexemesAlike_lexemesFrom {d : Dialect} (hd : IsUnbroken d) {t u : Text} (h : TextsAlike t u) (st : State) :
    LexemesAlike (lexemesFrom d 0 st t).1 (lexemesFrom d 0 st u).1 ∧
      StopsAlike (lexemesFrom d 0 st t).2 (lexemesFrom d 0 st u).2 := by
  -- Line by line, so that what is left gets shorter.
  induction hlength : t.length using Nat.strong_induction_on generalizing t u st with
  | _ n ih =>
    obtain rfl | ⟨body, xs, ys, t', u', hbody, hxs, hys, rfl, rfl, hrest⟩ := eq_or_line_of_textsAlike h
    · exact ⟨lexemesAlike_refl d 0 st t, fun _ _ => rfl⟩
    have hv : IsLineEnd (xs ++ 0x0A :: t') := ⟨xs, t', hxs, rfl⟩
    have hw : IsLineEnd (ys ++ 0x0A :: u') := ⟨ys, u', hys, rfl⟩
    have havoids : ∀ {v : Text}, IsLineEnd v → ∀ b ∈ v.head?, Avoids d b := by
      rintro v hv b hb
      obtain ⟨c, w, rfl, hc⟩ := hv.exists_cons
      cases hb
      exact hd.avoids hc
    rw [lexemesFrom_append hv (havoids hv) (.inl hbody.last) (Nat.zero_le _),
      lexemesFrom_append hw (havoids hw) (.inl hbody.last) (Nat.zero_le _)]
    split_ifs with hstop
    · obtain ⟨gap, hgap, hleft⟩ :=
        exists_lexemesFrom_lineEnd d (st.afterAll d (lexemesFrom d 0 st body).1) hxs t'
      obtain ⟨gap', hgap', hright⟩ :=
        exists_lexemesFrom_lineEnd d (st.afterAll d (lexemesFrom d 0 st body).1) hys u'
      have hshorter : t'.length < n := by
        rw [← hlength]
        simp only [List.length_append, List.length_cons]
        omega
      obtain ⟨halike, hstops⟩ := ih t'.length hshorter hrest {} rfl
      rw [hleft, hright]
      exact ⟨(lexemesAlike_refl d 0 st body).append (.ended hgap hgap' rfl rfl halike), hstops⟩
    · refine ⟨lexemesAlike_refl d 0 st body, fun file p => ?_⟩
      obtain ⟨b, rest, heq⟩ := List.exists_cons_of_ne_nil hstop
      rw [heq, List.cons_append, List.cons_append, errorAt?, errorAt?, firstRune_append_lineEnd hv,
        firstRune_append_lineEnd hw]

/-! ## Positions -/

theorem eq_of_forall₂_lexemes {ls ms : List Lexeme}
    (h : List.Forall₂ (fun l m : Lexeme => l = m ∧ l.kind ≠ .newline) ls ms) :
    ls = ms ∧ ∀ l ∈ ls, l.kind ≠ .newline := by
  induction h with
  | nil => exact ⟨rfl, by simp⟩
  | cons hl _ ih =>
    obtain ⟨rfl, hkind⟩ := hl
    obtain ⟨rfl, hrest⟩ := ih
    exact ⟨rfl, List.forall_mem_cons.2 ⟨hkind, hrest⟩⟩

/-- Behind a newline, the position does not depend on the blanks before it. -/
theorem Position.after_afterAll_newline {xs : List Lexeme}
    (hxs : ∀ l ∈ xs, l.kind = .whitespace ∧ ∀ b ∈ l.text, isBlank b) (p : Position) :
    (p.afterAll xs).after ⟨.newline, [0x0A]⟩ = ⟨p.line + 1, 1⟩ := by
  induction xs generalizing p with
  | nil => rfl
  | cons x xs ih =>
    have hline : (p.after x).line = p.line := by
      rw [Position.after, if_neg]
      simp [(hxs x List.mem_cons_self).1]
    have hrest := ih (fun l hl => hxs l (List.mem_cons_of_mem x hl)) (p.after x)
    rwa [hline] at hrest

theorem Position.afterAll_append (p : Position) (ls ms : List Lexeme) :
    p.afterAll (ls ++ ms) = (p.afterAll ls).afterAll ms :=
  List.foldl_append ..

theorem Position.afterAll_eq {ls ms : List Lexeme} (h : LexemesAlike ls ms) (p : Position) :
    p.afterAll ls = p.afterAll ms := by
  -- Behind a newline the column starts anew, however many blanks were in front of it.
  have hend : ∀ {xs : List Lexeme}, (∀ l ∈ xs, l.kind = .whitespace ∧ ∀ b ∈ l.text, isBlank b) →
      ∀ (p : Position) (cs : List Lexeme),
        p.afterAll (xs ++ ⟨.newline, [0x0A]⟩ :: cs) = (⟨p.line + 1, 1⟩ : Position).afterAll cs := by
    intro xs hxs p cs
    rw [← Position.after_afterAll_newline hxs, Position.afterAll_append]
    rfl
  induction h generalizing p with
  | last h => rw [(eq_of_forall₂_lexemes h).1]
  | line h hxs hys ha hb _ ih =>
    obtain ⟨rfl, -⟩ := eq_of_forall₂_lexemes h
    subst ha hb
    rw [Position.afterAll_append p, hend hxs, Position.afterAll_append p, hend hys, ih]

theorem located_append (file : Text) (p : Position) (id : Nat) (ls ms : List Lexeme) :
    located file p id (ls ++ ms) =
      located file p id ls ++ located file (p.afterAll ls) (id + ls.length) ms := by
  induction ls generalizing p id with
  | nil => rfl
  | cons l ls ih =>
    rw [List.cons_append, located, located, ih, List.cons_append, List.length_cons, Nat.add_assoc, Nat.add_comm 1]
    rfl

end Scan

/-! ## Tokens -/

namespace Token

/-- Whether a token is a blank, by its kind and by its text. -/
structure IsGap (t : Token) : Prop where
  isSpace : t.isSpace
  isBlank_of_mem : ∀ b ∈ t.text, Scan.isBlank b

theorem IsGap.kind {t : Token} (ht : IsGap t) : t.kind = .whitespace := beq_iff_eq.1 ht.isSpace

theorem IsGap.isNewline {t : Token} (ht : IsGap t) : t.isNewline = false := by
  rw [Token.isNewline, ht.kind]
  rfl

theorem IsGap.text_ne {t : Token} (ht : IsGap t) {text : Text} {b : UInt8} (hb : b ∈ text)
    (hblank : Scan.isBlank b = false) : t.text ≠ text := by
  rintro rfl
  rw [ht.isBlank_of_mem b hb] at hblank
  cases hblank

/-- Whether a token ends a line, by its kind and by its text. -/
structure EndsLine (t : Token) : Prop where
  isNewline : t.isNewline
  text : t.text = [0x0A]

theorem EndsLine.kind {t : Token} (ht : EndsLine t) : t.kind = .newline := beq_iff_eq.1 ht.isNewline

/-- Two tokens within a line that differ in their numbers only. -/
structure Same (t u : Token) : Prop where
  anonymous : t.anonymous = u.anonymous
  isNewline : t.isNewline = false

namespace Same

variable {t u : Token} (h : t.Same u)

include h

theorem kind : t.kind = u.kind := by simpa using congrArg Token.kind h.anonymous

theorem text : t.text = u.text := by simpa using congrArg Token.text h.anonymous

theorem loc : t.loc = u.loc := by simpa using congrArg Token.loc h.anonymous

theorem isSymbol (text : Text) : t.isSymbol text = u.isSymbol text := by
  rw [Token.isSymbol, Token.isSymbol, h.kind, h.text]

end Same

theorem forall₂_same_iff {ts us : List Token} :
    List.Forall₂ Same ts us ↔ ts.map anonymous = us.map anonymous ∧ ∀ t ∈ ts, t.isNewline = false := by
  constructor
  · intro h
    induction h with
    | nil => simp
    | cons ht _ ih => exact ⟨by simp [ht.anonymous, ih.1], List.forall_mem_cons.2 ⟨ht.isNewline, ih.2⟩⟩
  · rintro ⟨heq, hts⟩
    induction ts generalizing us with
    | nil =>
      obtain rfl := List.map_eq_nil_iff.1 heq.symm
      exact .nil
    | cons t ts ih =>
      cases us with
      | nil => cases heq
      | cons u us =>
        obtain ⟨ht, hrest⟩ := List.cons.inj heq
        obtain ⟨hnewline, hts⟩ := List.forall_mem_cons.1 hts
        exact .cons ⟨ht, hnewline⟩ (ih hrest hts)

theorem isNewline_of_forall₂_same {ts us : List Token} (h : List.Forall₂ Same ts us) :
    ∀ u ∈ us, u.isNewline = false := by
  induction h with
  | nil => simp
  | cons ht _ ih =>
    refine List.forall_mem_cons.2 ⟨?_, ih⟩
    rw [← isNewline_anonymous, ← ht.anonymous, isNewline_anonymous, ht.isNewline]

end Token

/-- Tokens with the same lines up to their numbers and up to blanks at the ends of the lines. -/
abbrev TokensAlike : List Token → List Token → Prop := LinesAlike Token.Same Token.IsGap Token.EndsLine

namespace TokensAlike

open Token Scan

/-- Numbers do not matter. -/
theorem of_map_anonymous {ts us : List Token} (h : TokensAlike (ts.map anonymous) (us.map anonymous)) :
    TokensAlike ts us := by
  have hgaps : ∀ {xs : List Token}, (∀ x ∈ xs.map anonymous, IsGap x) → ∀ x ∈ xs, IsGap x := by
    intro xs hxs x hx
    have hgap := hxs x.anonymous (List.mem_map_of_mem hx)
    exact ⟨hgap.isSpace, hgap.isBlank_of_mem⟩
  generalize hts : ts.map anonymous = as at h
  generalize hus : us.map anonymous = bs at h
  induction h generalizing ts us with
  | last h =>
    subst hts hus
    rw [List.forall₂_map_left_iff, List.forall₂_map_right_iff] at h
    exact .last (h.imp fun t u htu => ⟨htu.anonymous, htu.isNewline⟩)
  | line h hxs hys ha hb _ ih =>
    obtain ⟨line, rest, rfl, rfl, hrest⟩ := List.map_eq_append_iff.1 hts
    obtain ⟨xs, more, rfl, rfl, hmore⟩ := List.map_eq_append_iff.1 hrest
    obtain ⟨a, cs, rfl, rfl, hcs⟩ := List.map_eq_cons_iff.1 hmore
    obtain ⟨line', rest', rfl, rfl, hrest'⟩ := List.map_eq_append_iff.1 hus
    obtain ⟨ys, more', rfl, rfl, hmore'⟩ := List.map_eq_append_iff.1 hrest'
    obtain ⟨b, ds, rfl, rfl, hds⟩ := List.map_eq_cons_iff.1 hmore'
    rw [List.forall₂_map_left_iff, List.forall₂_map_right_iff] at h
    exact .line (h.imp fun t u htu => ⟨htu.anonymous, htu.isNewline⟩) (hgaps hxs) (hgaps hys) ⟨ha.isNewline, ha.text⟩
      ⟨hb.isNewline, hb.text⟩ (ih hcs hds)

theorem located {ls ms : List Lexeme} (h : LexemesAlike ls ms) (file : Text) (p : Position) (id id' : Nat) :
    TokensAlike (Scan.located file p id ls) (Scan.located file p id' ms) := by
  have hline : ∀ (as : List Lexeme) (p : Position) (id id' : Nat), (∀ l ∈ as, l.kind ≠ .newline) →
      List.Forall₂ Same (Scan.located file p id as) (Scan.located file p id' as) := by
    intro as
    induction as with
    | nil => exact fun _ _ _ _ => .nil
    | cons l as ih =>
      intro p id id' has
      obtain ⟨hl, has⟩ := List.forall_mem_cons.1 has
      exact .cons ⟨rfl, by simpa [Token.isNewline] using hl⟩ (ih _ _ _ has)
  have hgap : ∀ {xs : List Lexeme}, (∀ l ∈ xs, l.kind = .whitespace ∧ ∀ b ∈ l.text, Scan.isBlank b) →
      ∀ (p : Position) (id : Nat), ∀ t ∈ Scan.located file p id xs, IsGap t := by
    intro xs hxs p id t ht
    have hlexeme : t.lexeme ∈ xs := by
      have hmem := List.mem_map_of_mem (f := Token.lexeme) ht
      rwa [lexeme_located] at hmem
    obtain ⟨hkind, htext⟩ := hxs t.lexeme hlexeme
    exact ⟨beq_iff_eq.2 hkind, htext⟩
  induction h generalizing p id id' with
  | last h =>
    obtain ⟨rfl, hls⟩ := eq_of_forall₂_lexemes h
    exact .last (hline _ p id id' hls)
  | line h hxs hys ha hb _ ih =>
    obtain ⟨rfl, hls⟩ := eq_of_forall₂_lexemes h
    subst ha hb
    simp only [located_append, Scan.located, Position.after_afterAll_newline hxs, Position.after_afterAll_newline hys]
    exact .line (hline _ p id id' hls) (hgap hxs _ _) (hgap hys _ _) ⟨rfl, rfl⟩ ⟨rfl, rfl⟩ (ih _ _ _)

theorem pinned {ls ms : List Lexeme} (h : LexemesAlike ls ms) (loc : Location) (ctx ctx' : Context) :
    TokensAlike (Scan.pinned loc ctx ls).1 (Scan.pinned loc ctx' ms).1 := by
  refine of_map_anonymous ?_
  rw [pinned_anonymous, pinned_anonymous]
  refine h.map ?_ ?_ ?_
  · rintro l m ⟨rfl, hl⟩
    exact ⟨rfl, by simpa [Token.isNewline] using hl⟩
  · rintro l ⟨hl, htext⟩
    exact ⟨beq_iff_eq.2 hl, htext⟩
  · rintro l rfl
    exact ⟨rfl, rfl⟩

/-! ## Expressions -/

/-- A newline on a stack ends what stands together: it is met where the tokens above it are used up, and refused. -/
theorem bind_popVisible_append_newline {α : Type} {n : Token} (hn : n.isSpace = false)
    {f : Token × List Token × List Token → Option α} (hf : ∀ span rest, f (n, span, rest) = none)
    (stack below : List Token) :
    (popVisible (stack ++ n :: below)).bind f =
      (popVisible stack).bind fun x => f (x.1, x.2.1, x.2.2 ++ n :: below) := by
  rw [popVisible, popVisible, List.dropWhile_append, List.takeWhile_append]
  cases hdrop : stack.dropWhile Token.isSpace with
  | nil => simp [hn, hf]
  | cons t rest =>
    have hshort : (stack.takeWhile Token.isSpace).length ≠ stack.length := by
      have hlength := congrArg List.length (List.takeWhile_append_dropWhile (p := Token.isSpace) (l := stack))
      rw [hdrop, List.length_append, List.length_cons] at hlength
      omega
    simp [hshort]

theorem redex?_append_newline {n : Token} (hn : EndsLine n) (stack below : List Token) :
    redex? (stack ++ n :: below) = (redex? stack).map fun (r, rest) => (r, rest ++ n :: below) := by
  have hspace : n.isSpace = false := by rw [Token.isSpace, hn.kind]; rfl
  -- The newline is no constant, no operator and no bracket, wherever in the operation it is met.
  have hconstant : n.kind.isConstant = false := by rw [hn.kind]; rfl
  have hoperator : Operator.ofText? n.text = none := by rw [hn.text]; decide
  have hopening : n.text ≠ ("(" : Text) := by rw [hn.text]; decide
  simp only [redex?, Option.bind_eq_bind]
  rw [bind_popVisible_append_newline hspace (by simp [hconstant]), Option.map_bind]
  refine Option.bind_congr fun right _ => ?_
  rw [Function.comp_apply, Option.map_bind]
  refine Option.bind_congr fun _ _ => ?_
  rw [Function.comp_apply, bind_popVisible_append_newline hspace (by simp [hoperator]), Option.map_bind]
  refine Option.bind_congr fun op _ => ?_
  rw [Function.comp_apply, Option.map_bind]
  refine Option.bind_congr fun _ _ => ?_
  rw [Function.comp_apply, bind_popVisible_append_newline hspace (by simp [hconstant]), Option.map_bind]
  refine Option.bind_congr fun left _ => ?_
  rw [Function.comp_apply, Option.map_bind]
  refine Option.bind_congr fun _ _ => ?_
  rw [Function.comp_apply, bind_popVisible_append_newline hspace (by simp [hopening]), Option.map_bind]
  refine Option.bind_congr fun opening _ => ?_
  rw [Function.comp_apply, Option.map_bind]
  rfl

theorem shift_append_newline (d : Dialect) {n : Token} (hn : EndsLine n) (stack below : List Token) (t : Token) :
    shift d (stack ++ n :: below) t = shift d stack t ++ n :: below := by
  rw [shift, shift, redex?_append_newline hn]
  split_ifs
  · cases redex? stack <;> rfl
  · rfl

theorem foldl_shift_append_newline (d : Dialect) {n : Token} (hn : EndsLine n) (stack below ts : List Token) :
    ts.foldl (shift d) (stack ++ n :: below) = ts.foldl (shift d) stack ++ n :: below := by
  induction ts generalizing stack with
  | nil => rfl
  | cons t ts ih => rw [List.foldl_cons, List.foldl_cons, shift_append_newline d hn, ih]

/-- Expressions are reduced in each line on its own. -/
theorem reduce_append_newline (d : Dialect) {n : Token} (hn : EndsLine n) (ts us : List Token) :
    Token.reduce d (ts ++ n :: us) = Token.reduce d ts ++ n :: Token.reduce d us := by
  have hshift : shift d (ts.foldl (shift d) []) n = n :: ts.foldl (shift d) [] :=
    shift_of_ne (by rw [hn.text]; decide) d _
  have hrest := foldl_shift_append_newline d hn [] (ts.foldl (shift d) []) us
  rw [List.nil_append] at hrest
  rw [Token.reduce, List.foldl_append, List.foldl_cons, hshift, hrest, List.reverse_append, List.reverse_cons,
    List.append_assoc]
  rfl

theorem reduce_append_gaps (d : Dialect) {xs : List Token} (hxs : ∀ x ∈ xs, IsGap x) (ts : List Token) :
    Token.reduce d (ts ++ xs) = Token.reduce d ts ++ xs := by
  have hfold : ∀ stack : List Token, xs.foldl (shift d) stack = xs.reverse ++ stack := by
    induction xs with
    | nil => exact fun _ => rfl
    | cons x xs ih =>
      intro stack
      obtain ⟨hx, hxs⟩ := List.forall_mem_cons.1 hxs
      have hne : x.text ≠ (")" : Text) := IsGap.text_ne hx (b := 0x29) (by decide) (by decide)
      rw [List.foldl_cons, shift_of_ne hne, ih hxs, List.reverse_cons, List.append_assoc]
      rfl
  rw [Token.reduce, List.foldl_append, hfold, List.reverse_append, List.reverse_reverse]
  rfl

theorem mem_of_redex? {stack below : List Token} {r : Redex} (h : redex? stack = some (r, below)) {t : Token}
    (ht : t ∈ below) : t ∈ stack := by
  simp only [redex?, Option.bind_eq_bind, Option.bind_eq_some_iff] at h
  obtain ⟨right, hright, _, -, op, hop, _, -, left, hleft, _, -, opening, hopening, _, -, hrest⟩ := h
  cases hrest
  exact (mem_of_popVisible hright).2 t ((mem_of_popVisible hop).2 t ((mem_of_popVisible hleft).2 t
    ((mem_of_popVisible hopening).2 t ht)))

/-- No newline comes about by reduction. -/
theorem isNewline_of_mem_reduce (d : Dialect) {ts : List Token} (hts : ∀ t ∈ ts, t.isNewline = false) :
    ∀ t ∈ Token.reduce d ts, t.isNewline = false := by
  have hshift : ∀ {stack : List Token} {u : Token}, (∀ t ∈ stack, t.isNewline = false) → u.isNewline = false →
      ∀ t ∈ shift d stack u, t.isNewline = false := by
    intro stack u hstack hu
    rw [shift]
    split_ifs
    · cases hredex : redex? stack with
      | none => exact List.forall_mem_cons.2 ⟨hu, hstack⟩
      | some r => exact List.forall_mem_cons.2 ⟨rfl, fun t ht => hstack t (mem_of_redex? hredex ht)⟩
    · exact List.forall_mem_cons.2 ⟨hu, hstack⟩
  -- The invariant of the stack: no newline is on it, since a reduced operation is an expression.
  have hfold : ∀ stack : List Token, (∀ t ∈ stack, t.isNewline = false) →
      ∀ t ∈ ts.foldl (shift d) stack, t.isNewline = false := by
    induction ts with
    | nil => exact fun _ hstack => hstack
    | cons u ts ih =>
      obtain ⟨hu, hts⟩ := List.forall_mem_cons.1 hts
      exact fun stack hstack => ih hts _ (hshift hstack hu)
  intro t ht
  exact hfold [] (by simp) t (List.mem_reverse.1 ht)

/-- Expressions in tokens that are alike are reduced alike. -/
theorem reduce {ts us : List Token} (h : TokensAlike ts us) (d : Dialect) :
    TokensAlike (Token.reduce d ts) (Token.reduce d us) := by
  have hline : ∀ {as bs : List Token}, List.Forall₂ Same as bs →
      List.Forall₂ Same (Token.reduce d as) (Token.reduce d bs) := by
    intro as bs hsame
    obtain ⟨heq, has⟩ := forall₂_same_iff.1 hsame
    refine forall₂_same_iff.2 ⟨?_, isNewline_of_mem_reduce d has⟩
    rw [← reduce_anonymous, heq, reduce_anonymous]
  -- Reduction does not look across newlines, and blanks before one are no part of an operation.
  induction h with
  | last h => exact .last (hline h)
  | line h hxs hys ha hb _ ih =>
    rw [← List.append_assoc, ← List.append_assoc, reduce_append_newline d ha, reduce_append_newline d hb,
      reduce_append_gaps d hxs, reduce_append_gaps d hys, List.append_assoc, List.append_assoc]
    exact .line (hline h) hxs hys ha hb ih

/-! ## Scanned tokens -/

theorem scanned {ts us : List Token} (h : TokensAlike ts us) (d : Dialect) {e e' : Option LexError} (he : e = e') :
    TokensAlike (Scanned.ofTokens d ts e).tokens (Scanned.ofTokens d us e').tokens := by
  subst he
  rw [Scanned.ofTokens, Scanned.ofTokens]
  split_ifs
  · exact h.reduce d
  · exact h

variable {d : Dialect} (hd : IsUnbroken d) {t u : Text} (h : TextsAlike t u)

include hd h

/-- The tokens of texts that are alike are alike, and the scans stop with the same error. -/
theorem tokenize (file : Text) :
    TokensAlike (Token.tokenize d file t).tokens (Token.tokenize d file u).tokens ∧
      (Token.tokenize d file t).error = (Token.tokenize d file u).error := by
  obtain ⟨hlexemes, hstops⟩ := lexemesAlike_lexemesFrom hd h {}
  have herror : (Token.tokenize d file t).error = (Token.tokenize d file u).error := by
    have hstop := hstops file (Position.afterAll {} (lexemesFrom d 0 {} t).1)
    nth_rewrite 2 [Position.afterAll_eq hlexemes] at hstop
    exact hstop
  exact ⟨(located hlexemes file {} 0 0).scanned d herror, herror⟩

/-- So it is for texts that are substituted at the same location. -/
theorem pseudoTokenize (ctx ctx' : Context) (loc : Location) :
    TokensAlike (Token.pseudoTokenize d ctx t loc).1.tokens (Token.pseudoTokenize d ctx' u loc).1.tokens ∧
      (Token.pseudoTokenize d ctx t loc).1.error = (Token.pseudoTokenize d ctx' u loc).1.error := by
  obtain ⟨hlexemes, hstops⟩ := lexemesAlike_lexemesFrom hd h {}
  have herror : (Token.pseudoTokenize d ctx t loc).1.error = (Token.pseudoTokenize d ctx' u loc).1.error := by
    have hstop := hstops loc.file (Position.afterAll ⟨loc.line, loc.column⟩ (lexemesFrom d 0 {} t).1)
    nth_rewrite 2 [Position.afterAll_eq hlexemes] at hstop
    exact hstop
  exact ⟨(pinned hlexemes loc ctx ctx').scanned d herror, herror⟩

end TokensAlike

/-! ## Lines -/

/-- Lines that are the same up to the numbers of their tokens, and up to blanks at their ends if they have one. -/
inductive Line.Alike : Line → Line → Prop
  | last {ts us : List Token} (h : List.Forall₂ Token.Same ts us) : Alike ⟨ts, none⟩ ⟨us, none⟩
  | ended {ts us xs ys : List Token} {n m : Token} (h : List.Forall₂ Token.Same ts us) (hxs : ∀ x ∈ xs, x.IsGap)
    (hys : ∀ y ∈ ys, y.IsGap) (hn : n.EndsLine) (hm : m.EndsLine) : Alike ⟨ts ++ xs, some n⟩ ⟨us ++ ys, some m⟩

/-- Tokens that are alike have lines that are alike. -/
theorem TokensAlike.lines {ts us : List Token} (h : TokensAlike ts us) :
    List.Forall₂ Line.Alike (Line.ofTokens ts) (Line.ofTokens us) := by
  have hfree : ∀ {as xs : List Token}, (∀ t ∈ as, t.isNewline = false) → (∀ x ∈ xs, x.IsGap) →
      ∀ t ∈ as ++ xs, t.isNewline = false :=
    fun has hxs => List.forall_mem_append.2 ⟨has, fun x hx => (hxs x hx).isNewline⟩
  induction h with
  | last h =>
    cases h with
    | nil => exact .nil
    | cons ht hrest =>
      have hsame := List.Forall₂.cons ht hrest
      rw [Line.ofTokens_of_line (Token.forall₂_same_iff.1 hsame).2,
        Line.ofTokens_of_line (Token.isNewline_of_forall₂_same hsame)]
      exact .cons (.last hsame) .nil
  | line h hxs hys ha hb _ ih =>
    rw [← List.append_assoc, ← List.append_assoc,
      Line.ofTokens_append_newline (hfree (Token.forall₂_same_iff.1 h).2 hxs) ha.isNewline,
      Line.ofTokens_append_newline (hfree (Token.isNewline_of_forall₂_same h) hys) hb.isNewline]
    exact .cons (.ended h hxs hys ha hb) ih

namespace Line.Alike

variable {l m : Line} (h : Alike l m)

include h

theorem all : TokensAlike l.all m.all := by
  cases h with
  | last h => exact .last (by simpa [Line.all] using h)
  | ended h hxs hys hn hm =>
    have hline := LinesAlike.line h hxs hys hn hm .nil
    simpa [Line.all] using hline

/-- What a pass puts in the place of a line, if it is the same for both lines. -/
theorem replace {ts us : List Token} (hsame : List.Forall₂ Token.Same ts us) :
    TokensAlike (ts ++ l.newline.toList) (us ++ m.newline.toList) := by
  cases h with
  | last => exact .last (by simpa using hsame)
  | ended _ _ _ hn hm =>
    have hnone : ∀ x ∈ ([] : List Token), x.IsGap := by simp
    exact .prepend hsame (.ended hnone hnone hn hm .nil)

end Line.Alike

end EightBit
