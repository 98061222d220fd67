import Mathlib
import EightBit.Token.Expression

/-!
# Scanning written lexemes

What the scan of a text yields if the text was written lexeme by lexeme. A lexeme is read back where what
follows cannot extend it; the scan of a whole text is then put together from its lexemes.

* `Scan.ReadsIn`, `Scan.Reads`: a lexeme is read back before a given text, in one or in every state.
* `Scan.Reads.word`, `Scan.Reads.symbol` and their companions: when lexemes are read back.
* `Scan.lexemes_of_readsFrom`: the scan of written lexemes.
* `Token.reduce_eq_self`: no operation is reduced where no operator stands;
  `Token.reduce_of_unclosed`: nor where no bracket closes.
-/

namespace EightBit

theorem Text.codePoints_cons {b : UInt8} (hb : b < 0x80) (rest : Text) :
    Text.codePoints (b :: rest) = b.toNat :: Text.codePoints rest := by
  simp [Text.codePoints, Text.runes, Text.runesFrom, Text.firstRune, hb]

theorem CodePoint.fold_of_lt : ∀ c < 0x40, fold c = c := by
  decide

/-- Texts that start with different letters are different, letter case ignored. -/
theorem Text.equalFold_cons_eq_false {b : UInt8} (hb : b < 0x80) {w : Text}
    (hw : w.codePoints.head?.all fun c => CodePoint.fold b.toNat != CodePoint.fold c) (rest : Text) :
    Text.equalFold (b :: rest) w = false := by
  rw [Text.equalFold, Text.codePoints_cons hb]
  cases hcodes : w.codePoints with
  | nil => rfl
  | cons c cs =>
    have hne : CodePoint.fold b.toNat ≠ CodePoint.fold c := by simpa [hcodes] using hw
    simp [hne]

namespace Scan

theorem isIdentifier_of_isHexDigit {c : UInt8} (h : isHexDigit c) : isIdentifier c := by
  simp only [isHexDigit, isIdentifier, isLetter, isDigit, Bool.or_eq_true, Bool.and_eq_true,
    decide_eq_true_eq, UInt8.le_iff_toNat_le, UInt8.reduceToNat] at h ⊢
  omega

/-- A lexeme is read back in a state if the given text follows. -/
structure ReadsIn (d : Dialect) (st : State) (l : Lexeme) (rest : Text) : Prop where
  /-- The lexeme is not empty. -/
  text_ne_nil : l.text ≠ []
  /-- It is the next lexeme. -/
  next?_eq : next? d st (l.text ++ rest) = some l

/-- What some lexemes mean for the ones after them. -/
def State.afterAll (d : Dialect) (st : State) (ls : List Lexeme) : State := ls.foldl (State.after d) st

/-- Lexemes are read back one after the other from a state on if the given text follows. -/
def ReadsFrom (d : Dialect) : State → List Lexeme → Text → Prop
  | _, [], _ => True
  | st, l :: ls, rest =>
    ReadsIn d st l (ls.flatMap Lexeme.text ++ rest) ∧ ReadsFrom d (st.after d l) ls rest

/-- A lexeme is read back, whatever stands before it, if the given text follows. -/
structure Reads (d : Dialect) (l : Lexeme) (rest : Text) : Prop where
  /-- The lexeme is not empty. -/
  text_ne_nil : l.text ≠ []
  /-- It is the next lexeme. -/
  next?_eq : ∀ st, next? d st (l.text ++ rest) = some l

/-- Lexemes are read back one after the other if the given text follows. -/
def ReadsAll (d : Dialect) : List Lexeme → Text → Prop
  | [], _ => True
  | l :: ls, rest => Reads d l (ls.flatMap Lexeme.text ++ rest) ∧ ReadsAll d ls rest

/-! ## The scan of written lexemes -/

section Lexemes

variable {d : Dialect}

theorem lexemesFrom_skip (st : State) (before rest : Text) :
    lexemesFrom d before.length st (before ++ rest) = lexemesFrom d 0 st rest := by
  induction before with
  | nil => rfl
  | cons b before ih => rw [List.cons_append, List.length_cons, lexemesFrom, ih]

theorem ReadsIn.lexemesFrom_append {st : State} {l : Lexeme} {rest : Text} (h : ReadsIn d st l rest) :
    lexemesFrom d 0 st (l.text ++ rest) =
      (l :: (lexemesFrom d 0 (st.after d l) rest).1, (lexemesFrom d 0 (st.after d l) rest).2) := by
  obtain ⟨b, more, htext⟩ := List.exists_cons_of_ne_nil h.text_ne_nil
  have hnext := h.next?_eq
  -- The scan steps byte by byte and counts down the bytes of the lexeme behind its first.
  have hlen : l.text.length - 1 = more.length := by simp [htext]
  rw [htext, List.cons_append] at hnext ⊢
  simp only [lexemesFrom, hnext, hlen, lexemesFrom_skip]

theorem Reads.readsIn {l : Lexeme} {rest : Text} (h : Reads d l rest) (st : State) : ReadsIn d st l rest :=
  ⟨h.text_ne_nil, h.next?_eq st⟩

/-- What is read back in every state is read back from any state on. -/
theorem ReadsAll.readsFrom {ls : List Lexeme} {rest : Text} (h : ReadsAll d ls rest) (st : State) :
    ReadsFrom d st ls rest := by
  induction ls generalizing st with
  | nil => trivial
  | cons l ls ih => exact ⟨h.1.readsIn st, ih h.2 (st.after d l)⟩

theorem readsAll_append {ls ms : List Lexeme} {rest : Text}
    (hls : ReadsAll d ls (ms.flatMap Lexeme.text ++ rest)) (hms : ReadsAll d ms rest) :
    ReadsAll d (ls ++ ms) rest := by
  induction ls with
  | nil => exact hms
  | cons l ls ih =>
    refine ⟨?_, ih hls.2⟩
    have hread : Reads d l (ls.flatMap Lexeme.text ++ (ms.flatMap Lexeme.text ++ rest)) := hls.1
    rwa [← List.append_assoc, ← List.flatMap_append] at hread

theorem readsFrom_append {st : State} {ls ms : List Lexeme} {rest : Text}
    (hls : ReadsFrom d st ls (ms.flatMap Lexeme.text ++ rest)) (hms : ReadsFrom d (st.afterAll d ls) ms rest) :
    ReadsFrom d st (ls ++ ms) rest := by
  induction ls generalizing st with
  | nil => exact hms
  | cons l ls ih =>
    refine ⟨?_, ih hls.2 hms⟩
    have hread : ReadsIn d st l (ls.flatMap Lexeme.text ++ (ms.flatMap Lexeme.text ++ rest)) := hls.1
    rwa [← List.append_assoc, ← List.flatMap_append] at hread

/-- Lines that are read back whatever follows are read back one after the other. -/
theorem readsAll_flatten {lines : List (List Lexeme)} (h : ∀ l ∈ lines, ∀ rest, ReadsAll d l rest) :
    ReadsAll d lines.flatten [] := by
  induction lines with
  | nil => trivial
  | cons l lines ih =>
    exact readsAll_append (h l List.mem_cons_self _) (ih fun k hk => h k (List.mem_cons_of_mem l hk))

theorem lexemesFrom_of_readsFrom {ls : List Lexeme} {st : State} (h : ReadsFrom d st ls []) :
    lexemesFrom d 0 st (ls.flatMap Lexeme.text) = (ls, []) := by
  induction ls generalizing st with
  | nil => rfl
  | cons l ls ih =>
    have hread : ReadsIn d st l (ls.flatMap Lexeme.text) := by simpa using h.1
    rw [List.flatMap_cons, hread.lexemesFrom_append, ih h.2]

/-- The scan of a text that was written lexeme by lexeme yields these lexemes and stops nowhere. -/
theorem lexemes_of_readsFrom {ls : List Lexeme} (h : ReadsFrom d {} ls []) :
    lexemes d (ls.flatMap Lexeme.text) = (ls, []) :=
  lexemesFrom_of_readsFrom h

end Lexemes

/-! ## When a lexeme is read back -/

theorem toNat_of_isDigit {b : UInt8} (hb : isDigit b) : 0x30 ≤ b.toNat ∧ b.toNat ≤ 0x39 := by
  simpa [isDigit, UInt8.le_iff_toNat_le] using hb

/-- Whether a byte may introduce a number in another base. -/
def introduces (d : Dialect) (b : UInt8) : Bool :=
  (d.binPrefixes ++ d.hexPrefixes).any fun p =>
    p.codePoints.head?.all fun c => CodePoint.fold b.toNat == CodePoint.fold c

/-- Whether a byte starts neither a blank, a number nor a literal. -/
def isPlain (d : Dialect) (b : UInt8) : Bool :=
  b < 0x80 && !isBlank b && b != 0x0A && !isDigit b && b != 0x2D && b != 0x2B && b != 0x27 && b != 0x22
    && !introduces d b

section Rules

variable {d : Dialect} {b : UInt8}

theorem spelled?_eq_none {p : Text} (hb : b < 0x80)
    (hp : p.codePoints.head?.all (fun c => CodePoint.fold b.toNat == CodePoint.fold c) = false)
    (rest : Text) : spelled? p.codePoints (b :: rest) = none := by
  cases hcodes : p.codePoints with
  | nil => simp [hcodes] at hp
  | cons c cs =>
    have hne : CodePoint.fold b.toNat ≠ CodePoint.fold c := by simpa [hcodes] using hp
    simp [spelled?, Text.firstRune, hb, hne]

theorem radix?_eq_none {introductions : List Text} (hb : b < 0x80)
    (hnone : ∀ p ∈ introductions,
      p.codePoints.head?.all (fun c => CodePoint.fold b.toNat == CodePoint.fold c) = false)
    (isDigit : UInt8 → Bool) (rest : Text) : radix? introductions isDigit (b :: rest) = none := by
  rw [radix?, List.findSome?_eq_none_iff]
  intro p hp
  rw [spelled?_eq_none hb (hnone p hp)]
  rfl

/-- At a plain byte only the rule for words is left. -/
theorem rule?_of_isPlain (h : isPlain d b) (st : State) (rest : Text) :
    rule? d st (b :: rest) = (run? isWordStart isWordPart (b :: rest)).map fun n => (.word, n) := by
  simp only [isPlain, introduces, Bool.and_eq_true, decide_eq_true_eq, Bool.not_eq_true', bne_iff_ne,
    List.any_eq_false, List.mem_append, Bool.not_eq_true] at h
  obtain ⟨⟨⟨⟨⟨⟨⟨⟨hascii, hblank⟩, hnewline⟩, hdigit⟩, hminus⟩, hplus⟩, hchar⟩, hstring⟩, hnone⟩ := h
  have hbin := radix?_eq_none hascii (fun p hp => hnone p (.inl hp)) isBinDigit rest
  have hhex := radix?_eq_none hascii (fun p hp => hnone p (.inr hp)) isHexDigit rest
  have hchar? : charLiteral? (b :: rest) = none := by
    unfold charLiteral?
    split <;> simp_all
  have hstring? : stringLiteral? (b :: rest) = none := by
    unfold stringLiteral?
    split <;> simp_all
  simp [rule?, run?, newline?, digits?, signedDigits?, apart, hblank, hnewline, hdigit, hminus, hplus,
    hbin, hhex, hchar?, hstring?]

theorem length_takeWhile_append {p : UInt8 → Bool} {t rest : Text} (ht : ∀ c ∈ t, p c)
    (hrest : rest.head?.all fun c => !p c) : ((t ++ rest).takeWhile p).length = t.length := by
  rw [List.takeWhile_append_of_pos ht]
  cases rest with
  | nil => simp
  | cons c rest =>
    have hc : p c = false := by simpa using hrest
    simp [hc]

/-- A number keeps its length where no identifier goes on with it. -/
theorem apart_append (t : Text) {rest : Text} (hrest : rest.head?.all fun c => !isIdentifier c) :
    apart (t ++ rest) (some t.length) = some t.length := by
  rw [apart, Option.filter_some, List.drop_left, if_pos]
  cases rest with
  | nil => rfl
  | cons c rest => simpa using hrest

/-- Blanks are read back if no blank follows. -/
theorem Reads.blanks {t rest : Text} (hne : t ≠ []) (ht : ∀ c ∈ t, isBlank c)
    (hrest : rest.head?.all fun c => !isBlank c) : Reads d ⟨.whitespace, t⟩ rest := by
  refine ⟨hne, fun st => ?_⟩
  obtain ⟨c, more, rfl⟩ := List.exists_cons_of_ne_nil hne
  have hrun : run? isBlank isBlank (c :: more ++ rest) = some (c :: more).length := by
    rw [List.cons_append, run?, if_pos (ht c List.mem_cons_self),
      length_takeWhile_append (fun x hx => ht x (List.mem_cons_of_mem c hx)) hrest, List.length_cons, Nat.add_comm]
  rw [next?, rule?, hrun]
  simp

theorem Reads.blank {rest : Text} (hrest : rest.head?.all fun c => !isBlank c) :
    Reads d ⟨.whitespace, [0x20]⟩ rest :=
  .blanks (by simp) (by simp [isBlank]) hrest

/-- A newline is read back. -/
theorem Reads.newline (rest : Text) : Reads d ⟨.newline, [0x0A]⟩ rest := by
  refine ⟨by simp, fun st => ?_⟩
  have hblank : isBlank 0x0A = false := by decide
  simp [next?, rule?, run?, newline?, hblank]

/-- A symbol of one byte is read back if no longer one starts with it. -/
theorem Reads.symbol (hplain : isPlain d b) (hword : isWordStart b = false) (hlow : 0x20 < b)
    (hhigh : b < 0x7F) (hlong : ∀ s ∈ d.multiSymbols, s.head?.any (· != b)) (rest : Text) :
    Reads d ⟨.symbol, [b]⟩ rest := by
  refine ⟨by simp, fun st => ?_⟩
  have hlong? : (d.multiSymbols.find? fun s => s.isPrefixOf (b :: rest)) = none := by
    rw [List.find?_eq_none]
    intro s hs
    have hhead := hlong s hs
    cases s with
    | nil => simp at hhead
    | cons c s => simp_all
  -- A byte that belongs to an identifier but starts no word is a digit, which is not plain.
  have hidentifier : isIdentifier b = false := by
    simp only [isWordStart, Bool.or_eq_false_iff] at hword
    simp only [isPlain, Bool.and_eq_true, Bool.not_eq_true'] at hplain
    simp [isIdentifier, hword, hplain]
  rw [List.singleton_append, next?, rule?_of_isPlain hplain, run?, hword]
  simp [symbolLength, hlong?, hlow, hhigh, hidentifier]

/-- A word is read back if nothing follows that a word may go on with. -/
theorem Reads.word (more : Text) {rest : Text} (hplain : isPlain d b) (hword : isWordStart b)
    (hmore : ∀ c ∈ more, isWordPart c) (hrest : rest.head?.all fun c => !isWordPart c) :
    Reads d ⟨if (d.register? (b :: more)).isSome then .register else .word, b :: more⟩ rest := by
  refine ⟨by simp, fun st => ?_⟩
  have hlen : (more.length + 1 : Nat) = (b :: more).length := rfl
  rw [List.cons_append, next?, rule?_of_isPlain hplain, run?, if_pos hword,
    length_takeWhile_append hmore hrest, Option.map_some, Nat.add_comm, hlen, ← List.cons_append]
  simp only [List.take_left]
  simp

end Rules

end Scan

/-! ## Tokens of lexemes -/

/-- The lexeme that a token was made from. -/
def Token.lexeme (t : Token) : Lexeme := ⟨t.kind, t.text⟩

/-- The token of a lexeme that stands nowhere. -/
def Lexeme.token (l : Lexeme) : Token := { kind := l.kind, text := l.text }

theorem Scan.lexeme_located (file : Text) (p : Position) (id : Nat) (ls : List Lexeme) :
    (located file p id ls).map Token.lexeme = ls := by
  induction ls generalizing p id with
  | nil => rfl
  | cons l ls ih =>
    rw [located, List.map_cons, ih]
    rfl

namespace Token

theorem mem_of_popVisible {stack below span : List Token} {t : Token}
    (h : popVisible stack = some (t, span, below)) : t ∈ stack ∧ ∀ u ∈ below, u ∈ stack := by
  unfold popVisible at h
  split at h
  next => cases h
  next t' below' hdrop =>
    have hsub : ∀ u ∈ stack.dropWhile isSpace, u ∈ stack := fun u hu =>
      (List.dropWhile_sublist isSpace).mem hu
    rw [hdrop] at hsub
    cases h
    exact ⟨hsub t List.mem_cons_self, fun u hu => hsub u (List.mem_cons_of_mem t hu)⟩

/-- A bracketed operation has an operator. -/
theorem redex?_eq_none {stack : List Token} (h : ∀ t ∈ stack, Operator.ofText? t.text = none) :
    redex? stack = none := by
  unfold redex?
  cases hright : popVisible stack with
  | none => rfl
  | some right =>
    cases hop : popVisible right.2.2 with
    | none => by_cases hk : right.1.kind.isConstant <;> simp [hk, hop]
    | some op =>
      -- The operator would have to be the second token from the top.
      have hmem := (mem_of_popVisible hright).2 _ (mem_of_popVisible hop).1
      by_cases hk : right.1.kind.isConstant <;> simp [hk, hop, h _ hmem]

/-- Nothing is reduced where no operator stands. -/
theorem reduce_eq_self (d : Dialect) {tokens : List Token}
    (h : ∀ t ∈ tokens, Operator.ofText? t.text = none) : reduce d tokens = tokens := by
  -- Tokens are shifted onto a stack, of which the last token is the top.
  have hstack : tokens.foldl (shift d) [] = tokens.reverse := by
    induction tokens using List.reverseRecOn with
    | nil => rfl
    | append_singleton tokens t ih =>
      have hold : ∀ u ∈ tokens, Operator.ofText? u.text = none := fun u hu =>
        h u (List.mem_append_left _ hu)
      have hnone : redex? tokens.reverse = none :=
        redex?_eq_none fun u hu => hold u (List.mem_reverse.1 hu)
      rw [List.foldl_append, ih hold, List.reverse_concat]
      simp [shift, hnone]
  rw [reduce, hstack, List.reverse_reverse]

/-- Nothing is reduced where no bracket closes. -/
theorem reduce_of_unclosed (d : Dialect) {tokens : List Token}
    (h : ∀ t ∈ tokens, t.text ≠ (")" : Text)) : reduce d tokens = tokens := by
  have hstack : tokens.foldl (shift d) [] = tokens.reverse := by
    induction tokens using List.reverseRecOn with
    | nil => rfl
    | append_singleton tokens t ih =>
      have ht : t.text ≠ (")" : Text) := h t (by simp)
      rw [List.foldl_append, ih fun u hu => h u (List.mem_append_left _ hu), List.reverse_concat]
      simp [shift, ht]
  rw [reduce, hstack, List.reverse_reverse]

/-- The tokens of a text that was written lexeme by lexeme and in which nothing is reduced. -/
theorem tokenize_of_readsFrom {d : Dialect} {ls : List Lexeme} (file : Text)
    (hreads : Scan.ReadsFrom d {} ls [])
    (hreduce : reduce d (Scan.located file {} 0 ls) = Scan.located file {} 0 ls) :
    tokenize d file (ls.flatMap Lexeme.text) = ⟨Scan.located file {} 0 ls, none⟩ := by
  rw [tokenize, Scan.lexemes_of_readsFrom hreads]
  simp [Scan.errorAt?, Scanned.ofTokens, hreduce]

end Token

end EightBit
