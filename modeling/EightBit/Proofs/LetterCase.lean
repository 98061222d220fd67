import Mathlib
import EightBit.Text.Utf8

/-!
# Texts in upper case

Upper case is reached in one step: the code points that letters are mapped to are mapped no further, and a text is
read back from its encoding as the code points that it was encoded from.

* `CaseRange.avoids`, `CaseRange.isSettled`: what is checked of the table.
* `CodePoint.upper_upper`: the upper case of a code point is its own upper case.
* `Text.codePoints_flatMap_encode`: encoded code points are read back.
* `Text.toUpper_toUpper`: a text in upper case is its own upper case.
-/

namespace EightBit

/-! ## The table of letters -/

namespace CaseRange

/-- A run has a code point. -/
def Contains (r : CaseRange) (c : Nat) : Prop := r.first ≤ c ∧ c ≤ r.last ∧ (c - r.first) % r.step = 0

/-- The run that a run is mapped to. -/
def image (r : CaseRange) : CaseRange where
  first := (r.first + r.shift).toNat
  last := (r.last + r.shift).toNat
  step := r.step
  shift := -r.shift

/-- Whether a run lies in front of another one, behind it, or between its code points. -/
def avoids (r s : CaseRange) : Bool :=
  Nat.blt r.last s.first || Nat.blt s.last r.first ||
    (r.step % s.step == 0 || r.first == r.last) && r.first % s.step != s.first % s.step

/-- Whether a run is mapped to valid code points that have no upper case other than themselves. -/
def isSettled (r : CaseRange) : Bool :=
  0 ≤ r.first + r.shift && (r.image.last < 0x61 || 0x7A < r.image.first) &&
    (r.image.last < 0xD800 || 0xE000 ≤ r.image.first && r.image.last ≤ 0x10FFFF) && upperCase.all r.image.avoids

theorem isSettled_of_mem {r : CaseRange} (h : r ∈ upperCase) : r.isSettled :=
  List.all_eq_true.1 (by decide +kernel : upperCase.all isSettled = true) r h

variable {r s : CaseRange} {c c' : Nat}

theorem map?_eq_some : r.map? c = some c' ↔ r.Contains c ∧ (c + r.shift).toNat = c' := by
  unfold map? Contains
  split_ifs with h <;> simp [h]

theorem not_contains_of_avoids (h : r.avoids s) (hr : r.Contains c) : ¬s.Contains c := by
  rintro ⟨hfirst, hlast, hstep⟩
  obtain ⟨hrfirst, hrlast, hrstep⟩ := hr
  simp only [avoids, Bool.or_eq_true, Bool.and_eq_true, Nat.blt_eq, beq_iff_eq, bne_iff_ne] at h
  rcases h with (hbefore | hbehind) | ⟨hdivides, hne⟩
  · omega
  · omega
  · -- Both runs have the same remainder as the code point, one of them by way of its own step.
    have hsame : s.first ≡ c [MOD s.step] := (Nat.modEq_iff_dvd' hfirst).2 (Nat.dvd_of_mod_eq_zero hstep)
    have hrsame : r.first ≡ c [MOD s.step] := by
      rcases hdivides with hdivides | hone
      · have hown : r.first ≡ c [MOD r.step] := (Nat.modEq_iff_dvd' hrfirst).2 (Nat.dvd_of_mod_eq_zero hrstep)
        exact hown.of_dvd (Nat.dvd_of_mod_eq_zero hdivides)
      · rw [show c = r.first by omega]
    exact hne (hrsame.trans hsame.symm)

/-- A code point of a run is mapped to one of its image. -/
theorem contains_image (hpos : 0 ≤ (r.first : Int) + r.shift) (h : r.map? c = some c') : r.image.Contains c' := by
  obtain ⟨⟨hfirst, hlast, hstep⟩, rfl⟩ := map?_eq_some.1 h
  have hdistance : (c + r.shift).toNat - (r.first + r.shift).toNat = c - r.first := by omega
  refine ⟨?_, ?_, ?_⟩
  · simp only [image]
    omega
  · simp only [image]
    omega
  · simp only [image, hdistance, hstep]

end CaseRange

namespace CodePoint

/-- The upper case of a code point is itself or what the table has for it. -/
theorem upper_cases (c : Nat) :
    upper c = c ∨ (0x61 ≤ c ∧ c ≤ 0x7A ∧ upper c = c - 0x20) ∨
      ∃ r ∈ CaseRange.upperCase, r.map? c = some (upper c) := by
  unfold upper
  split_ifs with hascii hletter
  · exact .inr (.inl ⟨hletter.1, hletter.2, rfl⟩)
  · exact .inl rfl
  · cases hfound : CaseRange.upperCase.findSome? (·.map? c) with
    | none => exact .inl rfl
    | some c' => exact .inr (.inr (List.exists_of_findSome?_eq_some hfound))

/-- What a letter is mapped to is valid and has no other upper case. -/
theorem settled_of_map? {r : CaseRange} (hr : r ∈ CaseRange.upperCase) {c c' : Nat} (h : r.map? c = some c') :
    isValid c' ∧ upper c' = c' := by
  have hsettled := CaseRange.isSettled_of_mem hr
  simp only [CaseRange.isSettled, Bool.and_eq_true, Bool.or_eq_true, decide_eq_true_eq, List.all_eq_true] at hsettled
  obtain ⟨⟨⟨hpos, hletter⟩, hvalid⟩, havoids⟩ := hsettled
  have hcontains := CaseRange.contains_image hpos h
  have hfirst := hcontains.1
  have hlast := hcontains.2.1
  refine ⟨?_, ?_⟩
  · simp only [isValid, Bool.or_eq_true, Bool.and_eq_true, decide_eq_true_eq]
    omega
  · unfold upper
    split_ifs with hascii hsmall
    · omega
    · rfl
    · have hnone : CaseRange.upperCase.findSome? (·.map? c') = none := by
        refine List.findSome?_eq_none_iff.2 fun s hs => ?_
        rw [CaseRange.map?, if_neg]
        exact CaseRange.not_contains_of_avoids (havoids s hs) hcontains
      rw [hnone, Option.getD_none]

/-- The upper case of a code point is its own upper case. -/
theorem upper_upper (c : Nat) : upper (upper c) = upper c := by
  rcases upper_cases c with h | ⟨hfirst, hlast, h⟩ | ⟨r, hr, h⟩
  · rw [h, h]
  · rw [h, upper, if_pos (by omega), if_neg (by omega)]
  · exact (settled_of_map? hr h).2

theorem isValid_upper {c : Nat} (hc : isValid c) : isValid (upper c) := by
  rcases upper_cases c with h | ⟨hfirst, hlast, h⟩ | ⟨r, hr, h⟩
  · rwa [h]
  · simp only [h, isValid, Bool.or_eq_true, decide_eq_true_eq]
    omega
  · exact (settled_of_map? hr h).1

end CodePoint

/-! ## Reading back what was encoded -/

namespace Text

theorem toNat_toUInt8 {n : Nat} (h : n < 256) : n.toUInt8.toNat = n := UInt8.toNat_ofNat_of_lt' h

/-- The payload of a continuation byte. -/
theorem mod_of_continuation (n : Nat) : (0x80 + n % 0x40) % 0x40 = n % 0x40 := by omega

/-- A code point is read back from its bytes, whatever follows. -/
theorem firstRune_encode {c : Nat} (hc : CodePoint.isValid c) :
    ∃ b more, CodePoint.encode c = b :: more ∧ ∀ rest, firstRune b (more ++ rest) = ⟨c, more.length + 1⟩ := by
  have hvalid := hc
  simp only [CodePoint.isValid, Bool.or_eq_true, Bool.and_eq_true, decide_eq_true_eq] at hvalid
  simp only [CodePoint.encode, if_pos hc]
  -- The bytes by the size of the code point; each size has first bytes of its own.
  split_ifs with hone htwo hthree
  · refine ⟨_, _, rfl, fun rest => ?_⟩
    have hbyte := toNat_toUInt8 (show c < 256 by omega)
    simp only [firstRune, UInt8.lt_iff_toNat_lt, hbyte, UInt8.reduceToNat]
    rw [if_pos hone]
    rfl
  · refine ⟨_, _, rfl, fun rest => ?_⟩
    have hfirst := toNat_toUInt8 (show 0xC0 + c / 0x40 < 256 by omega)
    have hsecond := toNat_toUInt8 (show 0x80 + c % 0x40 < 256 by omega)
    simp only [firstRune, isContinuation, payload, UInt8.lt_iff_toNat_lt, UInt8.le_iff_toNat_le, hfirst, hsecond,
      List.cons_append, UInt8.reduceToNat, Bool.and_eq_true, decide_eq_true_eq]
    rw [if_neg (by omega), if_pos (by omega), if_pos (by omega)]
    simp only [List.length_cons, List.length_nil, Rune.mk.injEq, and_true]
    omega
  · refine ⟨_, _, rfl, fun rest => ?_⟩
    have hfirst := toNat_toUInt8 (show 0xE0 + c / 0x1000 < 256 by omega)
    have hsecond := toNat_toUInt8 (show 0x80 + c / 0x40 % 0x40 < 256 by omega)
    have hthird := toNat_toUInt8 (show 0x80 + c % 0x40 < 256 by omega)
    have hcode : (0xE0 + c / 0x1000) % 0x10 * 0x1000 + (0x80 + c / 0x40 % 0x40) % 0x40 * 0x40 +
        (0x80 + c % 0x40) % 0x40 = c := by
      have hhigh : (0xE0 + c / 0x1000) % 0x10 = c / 0x40 / 0x40 := by omega
      rw [hhigh, mod_of_continuation, mod_of_continuation]
      omega
    simp only [firstRune, isContinuation, payload, UInt8.lt_iff_toNat_lt, UInt8.le_iff_toNat_le, hfirst, hsecond,
      hthird, List.cons_append, UInt8.reduceToNat, Bool.and_eq_true, decide_eq_true_eq, hcode, hc, and_true]
    rw [if_neg (by omega), if_neg (by omega), if_pos (by omega), if_pos (by omega)]
    rfl
  · refine ⟨_, _, rfl, fun rest => ?_⟩
    have hfirst := toNat_toUInt8 (show 0xF0 + c / 0x40000 < 256 by omega)
    have hsecond := toNat_toUInt8 (show 0x80 + c / 0x1000 % 0x40 < 256 by omega)
    have hthird := toNat_toUInt8 (show 0x80 + c / 0x40 % 0x40 < 256 by omega)
    have hfourth := toNat_toUInt8 (show 0x80 + c % 0x40 < 256 by omega)
    have hcode : (0xF0 + c / 0x40000) % 0x08 * 0x40000 + (0x80 + c / 0x1000 % 0x40) % 0x40 * 0x1000 +
        (0x80 + c / 0x40 % 0x40) % 0x40 * 0x40 + (0x80 + c % 0x40) % 0x40 = c := by
      have hhighest : (0xF0 + c / 0x40000) % 0x08 = c / 0x1000 / 0x40 := by omega
      have hhigh : c / 0x1000 = c / 0x40 / 0x40 := (Nat.div_div_eq_div_mul c 0x40 0x40).symm
      rw [hhighest, hhigh, mod_of_continuation, mod_of_continuation, mod_of_continuation]
      omega
    simp only [firstRune, isContinuation, payload, UInt8.lt_iff_toNat_lt, UInt8.le_iff_toNat_le, hfirst, hsecond,
      hthird, hfourth, List.cons_append, UInt8.reduceToNat, Bool.and_eq_true, decide_eq_true_eq, hcode, hc, and_true]
    rw [if_neg (by omega), if_neg (by omega), if_neg (by omega), if_pos (by omega), if_pos (by omega)]
    rfl

theorem runesFrom_append (more rest : Text) : runesFrom more.length (more ++ rest) = runesFrom 0 rest := by
  induction more with
  | nil => rfl
  | cons b more ih => exact ih

theorem codePoints_encode_append {c : Nat} (hc : CodePoint.isValid c) (rest : Text) :
    codePoints (CodePoint.encode c ++ rest) = c :: codePoints rest := by
  obtain ⟨b, more, hbytes, hrune⟩ := firstRune_encode hc
  rw [hbytes, List.cons_append, codePoints, runes, runesFrom, hrune, Nat.add_sub_cancel, runesFrom_append]
  rfl

/-- The code points that a text was encoded from are read back. -/
theorem codePoints_flatMap_encode {cs : List Nat} (hcs : ∀ c ∈ cs, CodePoint.isValid c) :
    codePoints (cs.flatMap CodePoint.encode) = cs := by
  induction cs with
  | nil => rfl
  | cons c cs ih =>
    rw [List.flatMap_cons, codePoints_encode_append (hcs c List.mem_cons_self),
      ih fun c' hc' => hcs c' (List.mem_cons_of_mem c hc')]

/-- Whatever bytes a text starts with, a valid code point is read. -/
theorem isValid_firstRune (b : UInt8) (rest : Text) : CodePoint.isValid (firstRune b rest).code := by
  have hinvalid : CodePoint.isValid Rune.invalid.code := by decide
  have hsmall : ∀ {c : Nat}, c < 0x800 → CodePoint.isValid c := by
    intro c hc
    simp only [CodePoint.isValid, Bool.or_eq_true, decide_eq_true_eq]
    omega
  unfold firstRune
  split_ifs with hone htwo hthree hfour
  · exact hsmall (Nat.lt_of_lt_of_le b.toNat_lt (by decide))
  · split
    · split_ifs
      · exact hsmall (by simp only [payload]; omega)
      · exact hinvalid
    · exact hinvalid
  · split
    · simp only
      split_ifs with hguard
      · exact (Bool.and_eq_true_iff.1 hguard).2
      · exact hinvalid
    · exact hinvalid
  · split
    · simp only
      split_ifs with hguard
      · exact (Bool.and_eq_true_iff.1 hguard).2
      · exact hinvalid
    · exact hinvalid
  · exact hinvalid

/-- Every code point of a text is that of the character which starts at one of the bytes. -/
theorem exists_firstRune_of_mem_codePoints {t : Text} {c : Nat} (h : c ∈ t.codePoints) :
    ∃ b ∈ t, ∃ rest, (firstRune b rest).code = c := by
  have hfrom : ∀ skip : Nat, ∀ r ∈ runesFrom skip t, ∃ b ∈ t, ∃ rest, firstRune b rest = r := by
    clear h
    induction t with
    | nil => simp [runesFrom]
    | cons b t ih =>
      have hlater : ∀ skip : Nat, ∀ r ∈ runesFrom skip t, ∃ b' ∈ b :: t, ∃ rest, firstRune b' rest = r := by
        intro skip r hr
        obtain ⟨b', hb', hrune⟩ := ih skip r hr
        exact ⟨b', List.mem_cons_of_mem b hb', hrune⟩
      rintro (_ | skip) r hr
      · rcases List.mem_cons.1 hr with rfl | hr
        · exact ⟨b, List.mem_cons_self, t, rfl⟩
        · exact hlater _ r hr
      · exact hlater skip r hr
  obtain ⟨r, hr, rfl⟩ := List.mem_map.1 h
  obtain ⟨b, hb, rest, rfl⟩ := hfrom 0 r hr
  exact ⟨b, hb, rest, rfl⟩

theorem isValid_of_mem_codePoints {t : Text} {c : Nat} (h : c ∈ t.codePoints) : CodePoint.isValid c := by
  obtain ⟨b, -, rest, rfl⟩ := exists_firstRune_of_mem_codePoints h
  exact isValid_firstRune b rest

theorem codePoints_toUpper (t : Text) : t.toUpper.codePoints = t.codePoints.map CodePoint.upper := by
  rw [toUpper, ← List.flatMap_map CodePoint.upper CodePoint.encode]
  refine codePoints_flatMap_encode fun c hc => ?_
  obtain ⟨c', hc', rfl⟩ := List.mem_map.1 hc
  exact CodePoint.isValid_upper (isValid_of_mem_codePoints hc')

/-- A text in upper case is its own upper case. -/
@[simp] theorem toUpper_toUpper (t : Text) : t.toUpper.toUpper = t.toUpper := by
  rw [toUpper, codePoints_toUpper, List.flatMap_map]
  simp only [CodePoint.upper_upper]
  rfl

end Text

end EightBit
