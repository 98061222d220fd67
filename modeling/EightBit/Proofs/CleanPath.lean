import Mathlib
import EightBit.Cli.Disk

/-!
# Clean paths

A clean path has no empty part and no part that stands for the directory itself, and parts that stand for
the directory above only at its start. Cleaning therefore changes nothing the second time, and a clean
path under which a tree of files has a file is one of the paths that the tree lists.

* `Path.Normal`: the parts of a clean path, the last one first.
* `Path.clean_clean`: a clean path is clean.
* `FileTree.clean_mem_of_read`: a file is found only under its listed path.
-/

namespace EightBit

namespace Text

theorem not_mem_of_mem_split {b : UInt8} {t part : Text} (h : part ∈ split b t) : b ∉ part := by
  induction t generalizing part with
  | nil =>
    obtain rfl : part = [] := by simpa [split] using h
    simp
  | cons c rest ih =>
    unfold split at h
    split_ifs at h with hc
    · rcases List.mem_cons.1 h with rfl | h
      · simp
      · exact ih h
    · cases hrest : split b rest with
      | nil => exact absurd hrest (split_ne_nil b rest)
      | cons first others =>
        rw [hrest] at h ih
        rcases List.mem_cons.1 h with rfl | h
        · simp [Ne.symm hc, ih List.mem_cons_self]
        · exact ih (List.mem_cons_of_mem _ h)

theorem split_of_not_mem {b : UInt8} {t : Text} (h : b ∉ t) : split b t = [t] := by
  induction t with
  | nil => rfl
  | cons c rest ih =>
    obtain ⟨hc, hrest⟩ := not_or.1 (mt List.mem_cons.2 h)
    simp [split, Ne.symm hc, ih hrest]

theorem split_append_cons {b : UInt8} {t : Text} (h : b ∉ t) (rest : Text) :
    split b (t ++ b :: rest) = t :: split b rest := by
  induction t with
  | nil => simp [split]
  | cons c t ih =>
    obtain ⟨hc, ht⟩ := not_or.1 (mt List.mem_cons.2 h)
    simp [split, Ne.symm hc, ih ht]

/-- Parts without the byte are the parts of the text with the byte between them. -/
theorem split_joinWith {b : UInt8} {parts : List Text} (hne : parts ≠ [])
    (h : ∀ part ∈ parts, b ∉ part) : split b (joinWith [b] parts) = parts := by
  induction parts with
  | nil => exact absurd rfl hne
  | cons part rest ih =>
    cases rest with
    | nil => exact split_of_not_mem (h part List.mem_cons_self)
    | cons next rest =>
      rw [joinWith_cons_cons, List.append_assoc, List.singleton_append,
        split_append_cons (h part List.mem_cons_self),
        ih (List.cons_ne_nil _ _) fun p hp => h p (List.mem_cons_of_mem _ hp)]

theorem head?_joinWith {separator part : Text} (hpart : part ≠ []) (rest : List Text) :
    (joinWith separator (part :: rest)).head? = part.head? := by
  cases rest with
  | nil => rfl
  | cons next rest =>
    obtain ⟨b, part, rfl⟩ := List.exists_cons_of_ne_nil hpart
    rfl

end Text

namespace Path

/-- A part that names a file or directory. -/
structure IsName (part : Text) : Prop where
  /-- It is not empty. -/
  ne_nil : part ≠ []
  /-- It does not stand for the directory itself. -/
  ne_here : part ≠ here
  /-- It does not stand for the directory above. -/
  ne_above : part ≠ above

theorem cases_part (part : Text) : part = [] ∨ part = here ∨ part = above ∨ IsName part := by
  by_cases hnil : part = []
  · exact .inl hnil
  by_cases hhere : part = here
  · exact .inr (.inl hhere)
  by_cases habove : part = above
  · exact .inr (.inr (.inl habove))
  · exact .inr (.inr (.inr ⟨hnil, hhere, habove⟩))

section Push

variable (absolute : Bool) (found : List Text)

@[simp] theorem push_nil : push absolute found [] = found := rfl

@[simp] theorem push_here : push absolute found here = found := rfl

@[simp] theorem push_above_nil : push absolute [] above = if absolute then [] else [above] := rfl

@[simp] theorem push_above_cons (last : Text) :
    push absolute (last :: found) above = if last = above then above :: last :: found else found := by
  by_cases hlast : last = above
  · subst hlast
    rfl
  · rw [if_neg hlast]
    show (if (last == above) = true then above :: last :: found else found) = found
    exact if_neg (by simpa using hlast)

theorem IsName.push {part : Text} (h : IsName part) : push absolute found part = part :: found := by
  simp [Path.push, h.ne_nil, h.ne_here, h.ne_above]

end Push

/-- The parts of a clean path, the last one first: names, and before them the directory above any number
of times, unless the path starts at the root. -/
inductive Normal (absolute : Bool) : List Text → Prop
  | nil : Normal absolute []
  | above {found : List Text} (hrelative : absolute = false) (hfound : Normal absolute found)
    (hall : ∀ part ∈ found, part = above) : Normal absolute (above :: found)
  | name {part : Text} {found : List Text} (hname : IsName part) (hfound : Normal absolute found) :
    Normal absolute (part :: found)

section Normal

variable {absolute : Bool} {found : List Text}

theorem Normal.tail {part : Text} (h : Normal absolute (part :: found)) : Normal absolute found := by
  cases h with
  | above _ hfound _ => exact hfound
  | name _ hfound => exact hfound

/-- One more part leaves parts of a clean path. -/
theorem Normal.push (h : Normal absolute found) (part : Text) :
    Normal absolute (push absolute found part) := by
  rcases cases_part part with rfl | rfl | rfl | hname
  · exact h
  · exact h
  · cases h with
    | nil =>
      rw [push_above_nil]
      split_ifs with habs
      · exact .nil
      · exact .above (by simpa using habs) .nil (by simp)
    | above hrelative hfound hall =>
      rw [push_above_cons, if_pos rfl]
      exact .above hrelative (.above hrelative hfound hall) (List.forall_mem_cons.2 ⟨rfl, hall⟩)
    | name hname hfound =>
      rw [push_above_cons, if_neg hname.ne_above]
      exact hfound
  · rw [hname.push]
    exact .name hname h

theorem normal_foldl_push (parts : List Text) (h : Normal absolute found) :
    Normal absolute (parts.foldl (push absolute) found) :=
  List.foldlRecOn parts _ h fun _ hfound part _ => hfound.push part

theorem Normal.ne_nil (h : Normal absolute found) : ∀ part ∈ found, part ≠ [] := by
  induction h with
  | nil => simp
  | above _ _ _ ih => exact List.forall_mem_cons.2 ⟨by decide, ih⟩
  | name hname _ ih => exact List.forall_mem_cons.2 ⟨hname.ne_nil, ih⟩

/-- The parts of a clean path are kept as they are. -/
theorem Normal.push_eq {part : Text} (h : Normal absolute (part :: found)) :
    Path.push absolute found part = part :: found := by
  cases h with
  | above hrelative hfound hall =>
    cases found with
    | nil => simp [hrelative]
    | cons last rest => simp [hall last List.mem_cons_self]
  | name hname hfound => exact hname.push absolute found

/-- Only names are left of a path, or it starts with the directory above. -/
theorem Normal.names_or_above (h : Normal absolute found) :
    (∀ part ∈ found, IsName part) ∨ ∃ rest, found.reverse = Path.above :: rest := by
  induction h with
  | nil => exact .inl (by simp)
  | @above found _ _ hall _ =>
    rw [List.reverse_cons]
    cases hrev : found.reverse with
    | nil => exact .inr ⟨[], rfl⟩
    | cons part rest =>
      obtain rfl : part = Path.above := hall part (List.mem_reverse.1 (by simp [hrev]))
      exact .inr ⟨rest ++ [Path.above], rfl⟩
  | name hname _ ih =>
    rcases ih with hall | ⟨rest, hrest⟩
    · exact .inl (List.forall_mem_cons.2 ⟨hname, hall⟩)
    · exact .inr ⟨rest ++ [_], by rw [List.reverse_cons, hrest]; rfl⟩

theorem Normal.foldl_push (h : Normal absolute found) :
    found.reverse.foldl (Path.push absolute) [] = found := by
  induction found with
  | nil => rfl
  | cons part found ih =>
    rw [List.reverse_cons, List.foldl_append, ih h.tail]
    exact h.push_eq

end Normal

/-- The parts that cleaning leaves of a path, the last one first. -/
def cleanParts (path : Text) : List Text := (parts path).foldl (push (isAbsolute path)) []

theorem clean_eq (path : Text) :
    clean path =
      if isAbsolute path then slash :: Text.joinWith [slash] (cleanParts path).reverse
      else if (Text.joinWith [slash] (cleanParts path).reverse).isEmpty then here
      else Text.joinWith [slash] (cleanParts path).reverse := rfl

theorem normal_cleanParts (path : Text) : Normal (isAbsolute path) (cleanParts path) :=
  normal_foldl_push (parts path) .nil

theorem mem_push {absolute : Bool} {found : List Text} {next part : Text}
    (h : part ∈ push absolute found next) : part = next ∨ part ∈ found := by
  rcases cases_part next with rfl | rfl | rfl | hname
  · exact .inr h
  · exact .inr h
  · cases found with
    | nil =>
      rw [push_above_nil] at h
      split_ifs at h
      · cases h
      · exact .inl (List.mem_singleton.1 h)
    | cons last rest =>
      rw [push_above_cons] at h
      split_ifs at h
      · exact List.mem_cons.1 h
      · exact .inr (List.mem_cons_of_mem _ h)
  · rw [hname.push] at h
    exact List.mem_cons.1 h

theorem slash_not_mem_cleanParts {path : Text} : ∀ part ∈ cleanParts path, slash ∉ part := by
  apply List.foldlRecOn (motive := fun found => ∀ part ∈ found, slash ∉ part) (parts path)
  · simp
  · intro found hfound next hnext part hpart
    rcases mem_push hpart with rfl | hpart
    · exact Text.not_mem_of_mem_split hnext
    · exact hfound part hpart

theorem joinWith_eq_nil {path : Text}
    (h : Text.joinWith [slash] (cleanParts path).reverse = []) : cleanParts path = [] := by
  cases hrev : (cleanParts path).reverse with
  | nil => simpa using hrev
  | cons part rest =>
    have hpart : part ≠ [] :=
      (normal_cleanParts path).ne_nil part (List.mem_reverse.1 (by simp [hrev]))
    have hhead : (Text.joinWith [slash] (part :: rest)).head? = part.head? :=
      Text.head?_joinWith hpart rest
    rw [← hrev, h] at hhead
    exact absurd (List.head?_eq_none_iff.1 hhead.symm) hpart

/-- The parts of a clean path with at least one part. -/
theorem parts_joinWith {path : Text} (h : cleanParts path ≠ []) :
    parts (Text.joinWith [slash] (cleanParts path).reverse) = (cleanParts path).reverse :=
  Text.split_joinWith (by simpa using h) fun _ hpart =>
    slash_not_mem_cleanParts _ (List.mem_reverse.1 hpart)

theorem isAbsolute_clean (path : Text) : isAbsolute (clean path) = isAbsolute path := by
  rw [clean_eq]
  split_ifs with habs hempty
  · rw [habs]
    rfl
  · rw [Bool.eq_false_iff.2 habs]
    decide
  · -- The first part is not empty and has no slash.
    cases hrev : (cleanParts path).reverse with
    | nil => simp [hrev, Text.joinWith] at hempty
    | cons part rest =>
      have hmem : part ∈ cleanParts path := List.mem_reverse.1 (by simp [hrev])
      have hpart := (normal_cleanParts path).ne_nil part hmem
      obtain ⟨b, tail, rfl⟩ := List.exists_cons_of_ne_nil hpart
      have hb : b ≠ slash := fun h => slash_not_mem_cleanParts _ hmem (by simp [h])
      rw [isAbsolute, Text.head?_joinWith hpart]
      simp [hb, habs]

theorem cleanParts_clean (path : Text) : cleanParts (clean path) = cleanParts path := by
  have hnormal := (normal_cleanParts path).foldl_push
  rw [cleanParts, isAbsolute_clean, clean_eq]
  by_cases hparts : cleanParts path = []
  · rw [hparts]
    split_ifs with habs hempty
    · simp [habs, parts, Text.split, Text.joinWith, push]
    · simp only [habs]
      decide
    · simp [Text.joinWith] at hempty
  · rw [if_neg (c := (Text.joinWith [slash] (cleanParts path).reverse).isEmpty = true)
      fun h => hparts (joinWith_eq_nil (List.isEmpty_iff.1 h))]
    split_ifs with habs
    · -- The slash at the start adds an empty part, which is skipped.
      have hslash : parts (slash :: Text.joinWith [slash] (cleanParts path).reverse) =
          [] :: (cleanParts path).reverse := by
        conv_rhs => rw [← parts_joinWith hparts]
        simp [parts, Text.split]
      rw [hslash, List.foldl_cons]
      exact hnormal
    · rw [parts_joinWith hparts, hnormal]

/-- A clean path is clean. -/
theorem clean_clean (path : Text) : clean (clean path) = clean path := by
  rw [clean_eq (clean path), cleanParts_clean, isAbsolute_clean, ← clean_eq]

end Path

namespace FileTree

/-- Names lead to themselves. -/
theorem eq_of_walk {t : FileTree} {parts names found : List Text} (hnames : ∀ n ∈ names, Path.IsName n)
    (h : t.walk parts names = .ok found) : found = parts ++ names := by
  induction names generalizing parts with
  | nil =>
    rw [walk] at h
    cases h
    simp
  | cons name rest ih =>
    obtain ⟨hname, hrest⟩ := List.forall_mem_cons.1 hnames
    unfold walk at h
    rw [if_neg (by simp [hname.ne_nil, hname.ne_here]), if_neg (by simpa using hname.ne_above)] at h
    dsimp only at h
    split_ifs at h
    rw [ih hrest h, List.append_assoc, List.singleton_append]

/-- A clean path leads to the parts that it is made of. -/
theorem pathOf_of_locate {t : FileTree} {path : Text} {found : List Text}
    (h : t.locate (Path.clean path) = .ok found) : found = [] ∨ pathOf found = Path.clean path := by
  unfold locate at h
  split_ifs at h with hzero hempty
  obtain ⟨-, habs⟩ : Path.clean path ≠ [] ∧ Path.isAbsolute (Path.clean path) = false := by
    simpa using hempty
  rw [Path.isAbsolute_clean] at habs
  by_cases hparts : Path.cleanParts path = []
  · -- The path names the tree itself.
    have hhere : Path.clean path = Path.here := by
      rw [Path.clean_eq, habs, hparts]
      rfl
    rw [hhere] at h
    exact .inl (by cases h; rfl)
  · have hclean : Path.clean path = Text.joinWith [Path.slash] (Path.cleanParts path).reverse := by
      rw [Path.clean_eq, habs, if_neg Bool.false_ne_true,
        if_neg fun h => hparts (Path.joinWith_eq_nil (List.isEmpty_iff.1 h))]
    rw [hclean, Path.parts_joinWith hparts] at h
    rcases (Path.normal_cleanParts path).names_or_above with hnames | ⟨rest, hrest⟩
    · have hfound := eq_of_walk (fun n hn => hnames n (List.mem_reverse.1 hn)) h
      exact .inr (by rw [hclean, hfound, List.nil_append, pathOf])
    · -- A path that starts with the directory above leaves the tree.
      rw [hrest, walk, if_neg (by decide), if_pos (by decide)] at h
      cases h

/-- A file is found only under its listed path. -/
theorem clean_mem_of_read {t : FileTree} {path content : Text}
    (h : t.read (Path.clean path) = .file content) : Path.clean path ∈ t.files.map Prod.fst := by
  unfold read at h
  cases hlocate : t.locate (Path.clean path) with
  | error e => simp [hlocate] at h
  | ok found =>
    simp only [hlocate] at h
    split_ifs at h with hdir
    cases hfile : t.file? found with
    | none => simp [hfile] at h
    | some c =>
      rcases pathOf_of_locate hlocate with rfl | hpath
      · exact absurd rfl hdir
      · rw [file?, hpath, List.lookup_eq_some_iff] at hfile
        obtain ⟨before, after, hfiles, -⟩ := hfile
        rw [hfiles]
        simp

end FileTree

end EightBit
