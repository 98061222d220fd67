/-!
# Byte texts

Source files, names and messages are sequences of bytes. A source file need not be valid UTF-8, and
positions in it are counted in bytes, so nothing here assumes an encoding.

* `Text`: a sequence of bytes.
* `Text.ofString`: the UTF-8 bytes of a string, also inserted as a coercion.
* `Text.joinWith`: the texts of a list with a separator between them.
-/

namespace EightBit

/-- A sequence of bytes. -/
abbrev Text := List UInt8

namespace Text

/-- The UTF-8 bytes of a string. -/
def ofString (s : String) : Text := s.toUTF8.data.toList

instance : Coe String Text := ⟨ofString⟩

/-- The byte of an ASCII character. -/
def byteOf (c : Char) : UInt8 := c.toNat.toUInt8

/-- The texts of a list, one after the other, with `separator` between neighbours. -/
def joinWith (separator : Text) : List Text → Text
  | [] => []
  | [t] => t
  | t :: rest => t ++ separator ++ joinWith separator rest

/-- The text without every occurrence of a byte. -/
def without (b : UInt8) (t : Text) : Text := t.filter (· != b)

/-- What stands before and after the first occurrence of a byte; `none` if it does not occur. -/
def cut? (b : UInt8) : Text → Option (Text × Text)
  | [] => none
  | c :: rest =>
    if c = b then some ([], rest)
    else (cut? b rest).map fun (before, after) => (c :: before, after)

/-- The parts between the occurrences of a byte; there is one more part than there are occurrences. -/
def split (b : UInt8) : Text → List Text
  | [] => [[]]
  | c :: rest =>
    if c = b then [] :: split b rest
    else
      match split b rest with
      | [] => [[c]]
      | part :: parts => (c :: part) :: parts

/-- `n` blanks. -/
def blanks (n : Nat) : Text := List.replicate n 0x20

theorem joinWith_cons_cons (separator t u : Text) (rest : List Text) :
    joinWith separator (t :: u :: rest) = t ++ separator ++ joinWith separator (u :: rest) := rfl

theorem split_ne_nil (b : UInt8) (t : Text) : split b t ≠ [] := by
  cases t with
  | nil => simp [split]
  | cons c rest =>
    unfold split
    split
    · simp
    · split <;> simp

/-- The parts of a text with the byte between them are the text. -/
theorem joinWith_split (b : UInt8) (t : Text) : joinWith [b] (split b t) = t := by
  induction t with
  | nil => rfl
  | cons c rest ih =>
    obtain ⟨part, parts, hs⟩ := List.exists_cons_of_ne_nil (split_ne_nil b rest)
    rw [hs] at ih
    by_cases hc : c = b
    · simp [split, hc, hs, joinWith, ih]
    · cases parts <;> simp_all [split, joinWith]

/-- A cut puts the text back together around the byte. -/
theorem eq_of_cut? {b : UInt8} {t before after : Text} (h : cut? b t = some (before, after)) :
    t = before ++ b :: after := by
  induction t generalizing before with
  | nil => simp [cut?] at h
  | cons c rest ih =>
    by_cases hc : c = b
    · simp [cut?, hc] at h
      simp [← h.1, ← h.2, hc]
    · simp only [cut?, hc, if_false, Option.map_eq_some_iff, Prod.mk.injEq] at h
      obtain ⟨⟨u, v⟩, hu, rfl, rfl⟩ := h
      simp [ih hu]

end Text

end EightBit
