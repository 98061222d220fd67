import Mathlib
import EightBit.Proofs.Arithmetic
import EightBit.Proofs.Constant

/-!
# Written constant expressions

Trees of operations over the constants of the 6502, written with brackets around every operation, with one blank on
each side of an operator or with any blanks between the lexemes.

* `Mos6502.Expression`, `Mos6502.Expression.text`: trees, and how they are written;
  `Mos6502.Expression.eval?` is what they stand for.
* `Mos6502.Spaced`: a tree with the blanks between its lexemes; `Mos6502.Spaced.clashes` says that a percent sign and
  its divisor run into a binary numeral.
* `Mos6502.Spaced.readsBetween`: a written tree is scanned to its lexemes.
-/

namespace EightBit

open Scan

namespace Mos6502

/-! ## Trees -/

/-- A tree of operations over constants. -/
inductive Expression
  | constant (c : Constant)
  | operation (left : Expression) (op : Operator) (right : Expression)

namespace Expression

/-- A tree as it is written: brackets around every operation, and one blank on each side of its operator. -/
def text : Expression → Text
  | constant c => c.text
  | operation left op right =>
    ("(" : Text) ++ left.text ++ (" " : Text) ++ op.text ++ (" " : Text) ++ right.text ++ (")" : Text)

end Expression

/-- Blanks within a line, of any number. -/
structure Blanks where
  /-- The blanks as they are written. -/
  text : Text
  isBlank_of_mem : ∀ b ∈ text, isBlank b

/-- The lexemes of some blanks: one, or none if there are no blanks. -/
def Blanks.lexemes (bs : Blanks) : List Lexeme := if bs.text = [] then [] else [⟨.whitespace, bs.text⟩]

/-- The four places of a bracketed operation where blanks may stand. -/
structure Gaps where
  /-- Behind the opening bracket. -/
  opening : Blanks
  /-- Before the operator. -/
  before : Blanks
  /-- Behind the operator. -/
  behind : Blanks
  /-- Before the closing bracket. -/
  closing : Blanks

/-- A tree of operations over constants with the blanks between its lexemes. -/
inductive Spaced
  | constant (c : Constant)
  | operation (gaps : Gaps) (left : Spaced) (op : Operator) (right : Spaced)

/-- One blank on each side of an operator and no other blanks. -/
def Gaps.single : Gaps where
  opening := ⟨[], by simp⟩
  before := ⟨[0x20], by simp [isBlank]⟩
  behind := ⟨[0x20], by simp [isBlank]⟩
  closing := ⟨[], by simp⟩

/-- A tree with one blank on each side of an operator. -/
def Expression.spaced : Expression → Spaced
  | constant c => .constant c
  | operation left op right => .operation .single left.spaced op right.spaced

/-- An opening bracket. -/
def opening : Lexeme := ⟨.symbol, "("⟩

/-- A closing bracket. -/
def closing : Lexeme := ⟨.symbol, ")"⟩

namespace Spaced

/-- The tree without its blanks. -/
def tree : Spaced → Expression
  | constant c => .constant c
  | operation _ left op right => .operation left.tree op right.tree

/-- The source text. -/
def text : Spaced → Text
  | constant c => c.text
  | operation gaps left op right =>
    ("(" : Text) ++ gaps.opening.text ++ left.text ++ gaps.before.text ++ op.text ++ gaps.behind.text ++ right.text
      ++ gaps.closing.text ++ (")" : Text)

/-- The binary digits that a tree is if it is a decimal numeral of such digits only, and has no sign. -/
def binaryDigits? : Spaced → Option (Digits isBinDigit)
  | constant (.udec ds) =>
    if h : isBinDigit ds.first ∧ ∀ b ∈ ds.more, isBinDigit b || b == 0x5F then some ⟨ds.first, ds.more, h.1, h.2⟩
    else none
  | _ => none

/-- The binary numeral that a percent sign and a divisor right behind it run into. -/
def clash? (gaps : Gaps) (op : Operator) (right : Spaced) : Option (Digits isBinDigit) :=
  if op = .mod ∧ gaps.behind.text = [] then right.binaryDigits? else none

/-- Whether somewhere in a tree a percent sign and the divisor right behind it run into a binary numeral. -/
def clashes : Spaced → Bool
  | constant _ => false
  | operation gaps left op right => (clash? gaps op right).isSome || left.clashes || right.clashes

/-- The lexemes of an operator and its right operand with the blanks between them. -/
def operand (gaps : Gaps) (op : Operator) (right : Spaced) (rightLexemes : List Lexeme) : List Lexeme :=
  match clash? gaps op right with
  | some ds => [⟨.bin, 0x25 :: ds.text⟩]
  | none => ⟨.symbol, op.text⟩ :: (gaps.behind.lexemes ++ rightLexemes)

/-- The lexemes of a tree. -/
def lexemes : Spaced → List Lexeme
  | constant c => [c.lexeme]
  | operation gaps left op right =>
    opening :: (gaps.opening.lexemes ++ left.lexemes ++ gaps.before.lexemes
      ++ operand gaps op right right.lexemes ++ gaps.closing.lexemes ++ [closing])

end Spaced

/-! ## Scanning -/

/-- Lexemes are read back from every state in which a sign belongs to a number as `before` says, and leave one in
which it does as `after` says. -/
def ReadsBetween (before after : Bool) (ls : List Lexeme) (rest : Text) : Prop :=
  ∀ st : State, st.signed = before →
    ReadsFrom dialect st ls rest ∧ (st.afterAll dialect ls).signed = after

namespace ReadsBetween

variable {a b c : Bool} {rest : Text}

theorem nil : ReadsBetween a a [] rest := fun _ hst => ⟨trivial, hst⟩

theorem append {ls ms : List Lexeme} (hls : ReadsBetween a b ls (ms.flatMap Lexeme.text ++ rest))
    (hms : ReadsBetween b c ms rest) : ReadsBetween a c (ls ++ ms) rest := by
  intro st hst
  obtain ⟨hread, hafter⟩ := hls st hst
  obtain ⟨hreads, hsigned⟩ := hms _ hafter
  refine ⟨readsFrom_append hread hreads, ?_⟩
  rwa [State.afterAll, List.foldl_append]

theorem singleton {l : Lexeme} (hread : ∀ st : State, st.signed = a → ReadsIn dialect st l rest)
    (hafter : ∀ st : State, st.signed = a → (st.after dialect l).signed = b) : ReadsBetween a b [l] rest :=
  fun st hst => ⟨⟨hread st hst, trivial⟩, hafter st hst⟩

theorem cons {l : Lexeme} {ls : List Lexeme} (hl : ReadsBetween a b [l] (ls.flatMap Lexeme.text ++ rest))
    (hls : ReadsBetween b c ls rest) : ReadsBetween a c (l :: ls) rest :=
  append hl hls

end ReadsBetween

theorem Blanks.flatMap_lexemes (bs : Blanks) : bs.lexemes.flatMap Lexeme.text = bs.text := by
  rw [Blanks.lexemes]
  split_ifs with h <;> simp [h]

/-- Blanks are read back if no blank follows. -/
theorem Blanks.readsBetween (bs : Blanks) (a : Bool) {rest : Text} (hrest : rest.head?.all fun c => !isBlank c) :
    ReadsBetween a a bs.lexemes rest := by
  rw [Blanks.lexemes]
  split_ifs with h
  · exact .nil
  · exact .singleton (fun st _ => (Reads.blanks h bs.isBlank_of_mem hrest).readsIn st)
      fun st hst => by simpa [State.after] using hst

theorem readsBetween_opening (a : Bool) (rest : Text) : ReadsBetween a true [opening] rest :=
  .singleton (fun st _ => (Reads.symbol (by decide) (by decide) (by decide) (by decide) (by decide) rest).readsIn st)
    fun _ _ => rfl

theorem readsBetween_closing (a : Bool) (rest : Text) : ReadsBetween a false [closing] rest :=
  .singleton (fun st _ => (Reads.symbol (by decide) (by decide) (by decide) (by decide) (by decide) rest).readsIn st)
    fun _ _ => rfl

theorem Constant.readsBetween (c : Constant) {rest : Text} (hrest : rest.head?.all endsConstant) :
    ReadsBetween true false [c.lexeme] rest := by
  refine .singleton (fun st hst => Constant.readsIn hrest c hst) fun st _ => ?_
  cases c <;> rfl

/-- A percent sign is an operator if no binary numeral starts with it. -/
theorem readsIn_percent {st : State} {rest : Text}
    (hrest : apart (0x25 :: rest) (radix? dialect.binPrefixes isBinDigit (0x25 :: rest)) = none) :
    ReadsIn dialect st ⟨.symbol, [0x25]⟩ rest := by
  refine ⟨by simp, next?_symbol ?_ (by decide) (by decide) (by decide) (by decide)⟩
  have hhex : radix? dialect.hexPrefixes isHexDigit (0x25 :: rest) = none :=
    radix?_eq_none (by decide) (by decide) _ _
  change rule? dialect st (0x25 :: rest) = none
  rw [rule?, hrest, hhex]
  simp +decide [run?, newline?, digits?, signedDigits?, apart, charLiteral?, stringLiteral?]

/-- A shift operator is one symbol. -/
theorem reads_shift {b : UInt8} (hb : b = 0x3C ∨ b = 0x3E) (rest : Text) :
    Reads dialect ⟨.symbol, [b, b]⟩ rest := by
  refine ⟨by simp, fun st => ?_⟩
  have hlength : symbolLength dialect (b :: b :: rest) = 2 := by
    have hsymbols : dialect.multiSymbols = [[0x3C, 0x3C], [0x3E, 0x3E]] := by decide
    rcases hb with rfl | rfl <;> simp [symbolLength, hsymbols]
  have hrule : rule? dialect st (b :: b :: rest) = none := by
    rcases hb with rfl | rfl <;> rw [rule?_of_isPlain (by decide)] <;> rfl
  rw [List.cons_append, List.singleton_append, next?, hrule]
  simp [hlength]

/-- An operator is read back behind an operand, a percent sign only if it starts no binary numeral. -/
theorem readsBetween_operator (op : Operator) {rest : Text}
    (hrest : op = .mod → apart (0x25 :: rest) (radix? dialect.binPrefixes isBinDigit (0x25 :: rest)) = none) :
    ReadsBetween false true [⟨.symbol, op.text⟩] rest := by
  have hsymbol : ∀ b : UInt8, b ∈ ([0x2A, 0x2F, 0x26, 0x7C, 0x5E] : List UInt8) →
      Reads dialect ⟨.symbol, [b]⟩ rest := by
    intro b hb
    simp only [List.mem_cons, List.not_mem_nil, or_false] at hb
    rcases hb with rfl | rfl | rfl | rfl | rfl <;>
      exact .symbol (by decide) (by decide) (by decide) (by decide) (by decide) rest
  cases op with
  | add => exact .singleton (fun st hst => readsIn_sign (.inr rfl) hst rest) fun _ _ => rfl
  | sub => exact .singleton (fun st hst => readsIn_sign (.inl rfl) hst rest) fun _ _ => rfl
  | mul => exact .singleton (fun st _ => (hsymbol 0x2A (by simp)).readsIn st) fun _ _ => rfl
  | div => exact .singleton (fun st _ => (hsymbol 0x2F (by simp)).readsIn st) fun _ _ => rfl
  | mod => exact .singleton (fun st _ => readsIn_percent (hrest rfl)) fun _ _ => rfl
  | shiftLeft => exact .singleton (fun st _ => (reads_shift (.inl rfl) rest).readsIn st) fun _ _ => rfl
  | shiftRight => exact .singleton (fun st _ => (reads_shift (.inr rfl) rest).readsIn st) fun _ _ => rfl
  | and => exact .singleton (fun st _ => (hsymbol 0x26 (by simp)).readsIn st) fun _ _ => rfl
  | or => exact .singleton (fun st _ => (hsymbol 0x7C (by simp)).readsIn st) fun _ _ => rfl
  | xor => exact .singleton (fun st _ => (hsymbol 0x5E (by simp)).readsIn st) fun _ _ => rfl

/-! ## What lexemes start with -/

theorem Blanks.head?_append (bs : Blanks) {p : UInt8 → Bool} (hp : ∀ b, isBlank b → p b) {rest : Text}
    (hrest : rest.head?.all p) : (bs.text ++ rest).head?.all p := by
  cases htext : bs.text with
  | nil => exact hrest
  | cons b more => exact hp b (bs.isBlank_of_mem b (by simp [htext]))

theorem endsConstant_of_isBlank {b : UInt8} (h : isBlank b) : endsConstant b := by
  have hb : (((b = 0x20 ∨ b = 0x09) ∨ b = 0x0D) ∨ b = 0x0C) ∨ b = 0x0B := by simpa [isBlank] using h
  rcases hb with (((rfl | rfl) | rfl) | rfl) | rfl <;> rfl

/-- An operator starts with no blank and with nothing that a constant may go on with. -/
theorem head?_operator (op : Operator) (rest : Text) :
    ((op.text ++ rest).head?.all fun b => !isBlank b) ∧ (op.text ++ rest).head?.all endsConstant := by
  cases op <;> exact ⟨rfl, rfl⟩

/-- A constant starts with a digit, or with a mark, a sign or a quote and has more behind it. -/
theorem Constant.text_cases (c : Constant) :
    ∃ b more, c.text = b :: more ∧
      (isDigit b ∨ b ∈ ([0x24, 0x25, 0x2D, 0x2B, 0x27] : List UInt8) ∧ more ≠ []) := by
  cases c with
  | hex mark isMark ds =>
    rcases mem_hexMarks isMark with rfl | rfl | rfl
    · exact ⟨0x24, ds.text, rfl, .inr ⟨by simp, by simp [Digits.text]⟩⟩
    · exact ⟨0x30, 0x78 :: ds.text, rfl, .inl rfl⟩
    · exact ⟨0x30, 0x58 :: ds.text, rfl, .inl rfl⟩
  | bin mark isMark ds =>
    rcases mem_binMarks isMark with rfl | rfl | rfl
    · exact ⟨0x25, ds.text, rfl, .inr ⟨by simp, by simp [Digits.text]⟩⟩
    · exact ⟨0x30, 0x62 :: ds.text, rfl, .inl rfl⟩
    · exact ⟨0x30, 0x42 :: ds.text, rfl, .inl rfl⟩
  | dec sign isSign ds =>
    exact ⟨sign, ds.text, rfl, .inr ⟨by rcases isSign with rfl | rfl <;> simp, by simp [Digits.text]⟩⟩
  | udec ds => exact ⟨ds.first, ds.more, rfl, .inl ds.isDigit_first⟩
  | char c => exact ⟨0x27, c.text ++ [0x27], rfl, .inr ⟨by simp, by simp⟩⟩

theorem Constant.head?_text (c : Constant) (rest : Text) : (c.text ++ rest).head?.all fun b => !isBlank b := by
  obtain ⟨b, more, htext, hb | ⟨hb, -⟩⟩ := c.text_cases
  · have hrange := toNat_of_isDigit hb
    simp only [htext, List.cons_append, List.head?_cons, Option.all_some, isBlank, Bool.not_eq_true',
      Bool.or_eq_false_iff, beq_eq_false_iff_ne, ne_eq, ← UInt8.toNat_inj, UInt8.reduceToNat]
    omega
  · simp only [List.mem_cons, List.not_mem_nil, or_false] at hb
    rw [htext]
    rcases hb with rfl | rfl | rfl | rfl | rfl <;> rfl

theorem Spaced.head?_text (s : Spaced) (rest : Text) : (s.text ++ rest).head?.all fun b => !isBlank b := by
  cases s with
  | constant c => exact c.head?_text rest
  | operation gaps left op right => rfl

/-! ## Percent signs -/

theorem drop_length_takeWhile (p : UInt8 → Bool) (u : Text) : u.drop (u.takeWhile p).length = u.dropWhile p := by
  induction u with
  | nil => rfl
  | cons c u ih =>
    by_cases hc : p c
    · simpa [hc] using ih
    · simp [hc]

/-- A percent sign starts no binary numeral if binary digits behind it run into something else. -/
theorem apart_percent {b : UInt8} {u : Text}
    (h : isBinDigit b → (u.dropWhile fun c => isBinDigit c || c == 0x5F).head?.any isIdentifier) :
    apart (0x25 :: b :: u) (radix? dialect.binPrefixes isBinDigit (0x25 :: b :: u)) = none := by
  have hmark : [0x25] ∈ binMarks := by decide
  have hradix := radix?_binMark hmark (b :: u)
  rw [List.singleton_append] at hradix
  rw [hradix, digits?, run?]
  split_ifs with hb
  · rw [Option.map_some, apart, Option.filter_some, if_neg]
    -- The numeral would end where the binary digits end, in the middle of an identifier.
    have hdrop : (0x25 :: b :: u).drop (([0x25] : Text).length +
        (1 + (u.takeWhile fun c => isBinDigit c || c == 0x5F).length)) =
          u.dropWhile fun c => isBinDigit c || c == 0x5F := by
      rw [List.length_singleton, ← Nat.add_assoc, Nat.add_comm, List.drop_succ_cons, List.drop_succ_cons]
      exact drop_length_takeWhile _ u
    rw [hdrop, h hb]
    decide
  · rfl

/-- Digits that are not all binary end in one that is not. -/
theorem dropWhile_digits {more : Text} (hmore : ∀ c ∈ more, isDigit c || c == 0x5F)
    (hother : ¬∀ c ∈ more, isBinDigit c || c == 0x5F) (rest : Text) :
    ((more ++ rest).dropWhile fun c => isBinDigit c || c == 0x5F).head?.any isIdentifier := by
  induction more with
  | nil => simp at hother
  | cons c more ih =>
    by_cases hc : (isBinDigit c || c == 0x5F) = true
    · rw [List.cons_append, List.dropWhile_cons, if_pos hc]
      refine ih (fun x hx => hmore x (List.mem_cons_of_mem c hx)) fun hall => hother ?_
      intro x hx
      rcases List.mem_cons.1 hx with rfl | hx
      · exact hc
      · exact hall x hx
    · rw [List.cons_append, List.dropWhile_cons, if_neg hc]
      have hdigit := hmore c List.mem_cons_self
      simp only [Bool.or_eq_true, not_or] at hc hdigit
      rcases hdigit with hdigit | hscore
      · simp [isIdentifier, hdigit]
      · exact absurd hscore hc.2

/-- A percent sign is an operator before blanks and before whatever it does not run into. -/
theorem apart_percent_of_clash? {gaps : Gaps} {right : Spaced} (h : Spaced.clash? gaps .mod right = none)
    (rest : Text) :
    apart (0x25 :: (gaps.behind.text ++ (right.text ++ rest)))
      (radix? dialect.binPrefixes isBinDigit (0x25 :: (gaps.behind.text ++ (right.text ++ rest)))) = none := by
  cases hbehind : gaps.behind.text with
  | cons b more =>
    have hblank := gaps.behind.isBlank_of_mem b (by simp [hbehind])
    refine apart_percent fun hb => ?_
    have hdigit : b = 0x30 ∨ b = 0x31 := by simpa [isBinDigit] using hb
    rcases hdigit with rfl | rfl <;> simp [isBlank] at hblank
  | nil =>
    rw [Spaced.clash?, if_pos ⟨rfl, hbehind⟩] at h
    rw [List.nil_append]
    cases right with
    | operation gaps left op right => exact apart_percent fun hb => absurd hb (by decide)
    | constant c =>
      cases c with
      | hex mark isMark ds =>
        rcases mem_hexMarks isMark with rfl | rfl | rfl
        · exact apart_percent fun hb => absurd hb (by decide)
        · exact apart_percent fun _ => rfl
        · exact apart_percent fun _ => rfl
      | bin mark isMark ds =>
        rcases mem_binMarks isMark with rfl | rfl | rfl
        · exact apart_percent fun hb => absurd hb (by decide)
        · exact apart_percent fun _ => rfl
        · exact apart_percent fun _ => rfl
      | dec sign isSign ds =>
        rcases isSign with rfl | rfl <;> exact apart_percent fun hb => absurd hb (by decide)
      | char c => exact apart_percent fun hb => absurd hb (by decide)
      | udec ds =>
        refine apart_percent fun hfirst => dropWhile_digits ds.isDigit_more (fun hmore => ?_) rest
        rw [Spaced.binaryDigits?, dif_pos ⟨hfirst, hmore⟩] at h
        cases h

/-! ## Scanning a tree -/

namespace Spaced

theorem text_of_binaryDigits? {s : Spaced} {ds : Digits isBinDigit} (h : s.binaryDigits? = some ds) :
    s.text = ds.text := by
  unfold binaryDigits? at h
  split at h
  next digits =>
    split_ifs at h
    cases h
    rfl
  next => cases h

theorem text_of_clash? {gaps : Gaps} {op : Operator} {right : Spaced} {ds : Digits isBinDigit}
    (h : clash? gaps op right = some ds) : op.text ++ gaps.behind.text ++ right.text = 0x25 :: ds.text := by
  unfold clash? at h
  split_ifs at h with hop
  obtain ⟨rfl, hbehind⟩ := hop
  rw [hbehind, text_of_binaryDigits? h]
  rfl

theorem flatMap_operand (gaps : Gaps) (op : Operator) (right : Spaced) {ls : List Lexeme}
    (hls : ls.flatMap Lexeme.text = right.text) :
    (operand gaps op right ls).flatMap Lexeme.text = op.text ++ gaps.behind.text ++ right.text := by
  unfold operand
  split
  next ds h =>
    rw [text_of_clash? h]
    simp
  next => simp [Blanks.flatMap_lexemes, hls]

/-- A written tree is the text of its lexemes. -/
theorem flatMap_lexemes (s : Spaced) : s.lexemes.flatMap Lexeme.text = s.text := by
  induction s with
  | constant c => simp [lexemes, text, Constant.lexeme]
  | operation gaps left op right ihleft ihright =>
    simp [lexemes, text, opening, closing, Blanks.flatMap_lexemes, flatMap_operand gaps op right ihright, ihleft]

/-- An operator and its right operand are read back behind the left one, as a binary numeral if they run into one. -/
theorem readsBetween_operand (gaps : Gaps) (op : Operator) (right : Spaced) {rest : Text}
    (hrest : rest.head?.all endsConstant) (hright : ReadsBetween true false right.lexemes rest) :
    ReadsBetween false false (operand gaps op right right.lexemes) rest := by
  unfold operand
  split
  next ds h =>
    refine .singleton (fun st _ => ⟨by simp, next?_of_rule? (by simp) ?_⟩) fun _ _ => rfl
    have hmark : [0x25] ∈ binMarks := by decide
    exact rule?_bin hmark ds (not_isIdentifier_of_ends hrest)
  next h =>
    refine .cons (readsBetween_operator op fun hop => ?_) (.append (gaps.behind.readsBetween true ?_) hright)
    · subst hop
      rw [List.flatMap_append, Blanks.flatMap_lexemes, flatMap_lexemes, List.append_assoc]
      exact apart_percent_of_clash? h rest
    · rw [flatMap_lexemes]
      exact right.head?_text rest

/-- A written tree is read back where a sign belongs to a number. -/
theorem readsBetween (s : Spaced) {rest : Text} (hrest : rest.head?.all endsConstant) :
    ReadsBetween true false s.lexemes rest := by
  induction s generalizing rest with
  | constant c => exact c.readsBetween hrest
  | operation gaps left op right ihleft ihright =>
    have hbehind : (gaps.closing.lexemes.flatMap Lexeme.text ++ ([closing].flatMap Lexeme.text ++ rest)).head?.all
        endsConstant := by
      rw [Blanks.flatMap_lexemes]
      exact gaps.closing.head?_append (fun _ => endsConstant_of_isBlank) rfl
    have hoperator : ∀ u, (((operand gaps op right right.lexemes).flatMap Lexeme.text ++ u).head?.all
        fun b => !isBlank b) ∧
        ((operand gaps op right right.lexemes).flatMap Lexeme.text ++ u).head?.all endsConstant := by
      intro u
      rw [flatMap_operand gaps op right right.flatMap_lexemes, List.append_assoc, List.append_assoc]
      exact head?_operator op _
    refine .cons (readsBetween_opening true _) (.append (.append (.append (.append (.append
      (gaps.opening.readsBetween true ?_) (ihleft ?_)) (gaps.before.readsBetween false ?_))
        (readsBetween_operand gaps op right hbehind (ihright hbehind)))
          (gaps.closing.readsBetween false rfl)) (readsBetween_closing false rest))
    · rw [flatMap_lexemes]
      exact left.head?_text _
    · rw [Blanks.flatMap_lexemes]
      refine gaps.before.head?_append (fun _ => endsConstant_of_isBlank) ?_
      exact (hoperator _).2
    · exact (hoperator _).1

end Spaced

end Mos6502

end EightBit
