import Mathlib
import EightBit.Cli.Build
import EightBit.Mos6502.Architecture
import EightBit.Proofs.CleanPath
import EightBit.Proofs.Imports

/-!
# The search for imports

A file is built after the files that it imports, depth first. A file is entered into the sources before it
is parsed, so the search enters no file twice, and on a finite disk it ends. What was found stays found,
and a tree that may be imported has all its imports among the sources, each with a tree that may be
imported. If the build succeeds, imports therefore lead from the file to files that build by themselves,
and never back.

* `Disk.IsFinite`: a disk on which the search ends.
* `Build.Imports`: one file imports another one.
* `Build.Builds`: the tree of a file, independent of what was built before.
* `Build.keeps_resolve`, `Build.exists_finds`: what looking up a file does to the sources.
* `Build.Builds.resolve_eq`: a file that builds by itself is found.
* `Build.exists_run_acyclic`: what a build does, and when it succeeds.
-/

namespace EightBit

/-- Everything on a disk is known, and there are no more files than the disk says. -/
structure Disk.IsFinite (disk : Disk) : Prop where
  /-- What is found under a path is known. -/
  known : ∀ path, disk.read path ≠ .unknown
  /-- The clean paths of the files can be listed. -/
  bounded : ∃ paths : List Text, paths.length ≤ disk.size ∧
    ∀ path text, disk.read (Path.clean path) = .file text → Path.clean path ∈ paths

theorem FileTree.isFinite_disk (t : FileTree) : t.disk.IsFinite where
  known path := by
    show t.read path ≠ .unknown
    unfold FileTree.read
    split
    · simp
    · split_ifs
      · simp
      · split <;> simp
  bounded := ⟨t.files.map Prod.fst, by simp [FileTree.disk], fun _ _ => FileTree.clean_mem_of_read⟩

namespace Assembler

/-- A tree that is assembled has no errors, and may be imported if nothing went wrong. -/
theorem isImportable_assemble {a : Assembler} {t : Tree} {m : Memory} {out : Assembled}
    (hout : a.assemble t m = some out) : t.errors = [] ∧ (out.tree.IsImportable ↔ out.errors = []) := by
  unfold assemble at hout
  split_ifs at hout with herrors
  cases hout
  refine ⟨List.isEmpty_iff.1 herrors, fun h => ?_, fun h => ⟨List.isEmpty_iff.1 herrors, ?_⟩⟩
  · exact List.isEmpty_iff.1 h.assembled
  · exact List.isEmpty_iff.2 h

end Assembler

namespace Build

theorem clean_importPath (dir name : Text) : Path.clean (importPath dir name) = importPath dir name := by
  unfold importPath
  split_ifs
  · exact Path.clean_clean _
  · exact Path.clean_clean _

/-- A file imports another one, which is known by its clean path. -/
def Imports (disk : Disk) (a : Assembler) (path target : Text) : Prop :=
  ∃ text, disk.read path = .file text ∧
    ∃ name ∈ a.importNames path text, importPath (Path.dir path) name = target

/-- The files that were entered without a tree, which is done before they are parsed. -/
def entered (s : Sources) : List Text := (s.filter fun e => e.2.isNone).map Prod.fst

/-! ## Files that build by themselves -/

/-- The tree of a file that can be built, after the files that it imports. -/
inductive Builds (disk : Disk) (a : Assembler) : Text → Tree → Prop
  | intro {path text : Text} {files : Text → Option Tree} {trees : Text → Tree} {out : Assembled}
    (hread : disk.read path = .file text)
    (hfiles : ∀ name ∈ a.importNames path text, files name = some (trees name))
    (himports : ∀ name ∈ a.importNames path text,
      Builds disk a (importPath (Path.dir path) name) (trees name))
    (hout : a.assemble ({ a with files }.parse path text).tree a.freshMemory = some out)
    (herrors : out.errors = []) : Builds disk a path out.tree

section Builds

variable {disk : Disk} {a : Assembler} {path target : Text} {t : Tree}

theorem Builds.exists_read (h : Builds disk a path t) : ∃ text, disk.read path = .file text := by
  obtain ⟨hread, -, -, -, -⟩ := h
  exact ⟨_, hread⟩

/-- A file that can be built has one tree. -/
theorem Builds.unique (h : Builds disk a path t) {u : Tree} (hu : Builds disk a path u) : t = u := by
  induction h generalizing u with
  | @intro path text files _ _ hread hfiles _ hout herrors ih =>
    cases hu with
    | @intro _ text' files' _ _ hread' hfiles' himports' hout' herrors' =>
      obtain rfl := Found.file.inj (hread.symm.trans hread')
      -- The imports have the same trees, so the text does too.
      have hagree : ∀ name ∈ a.importNames path text, files name = files' name := by
        intro name hname
        rw [hfiles name hname, hfiles' name hname, ih name hname (himports' name hname)]
      rw [Assembler.parse_congr hagree, hout'] at hout
      cases hout
      rfl

/-- What is imported by a file that can be built can be built. -/
theorem Builds.imports (h : Builds disk a path t) (htarget : Imports disk a path target) :
    ∃ u, Builds disk a target u := by
  obtain ⟨hread, hfiles, himports, hout, herrors⟩ := h
  obtain ⟨text, hread', name, hname, rfl⟩ := htarget
  obtain rfl := Found.file.inj (hread.symm.trans hread')
  exact ⟨_, himports name hname⟩

/-- Imports of a file that can be built come to an end. -/
theorem Builds.acc (h : Builds disk a path t) : Acc (fun target path => Imports disk a path target) path := by
  induction h with
  | intro hread _ _ _ _ ih =>
    refine ⟨_, ?_⟩
    rintro _ ⟨text, hread', name, hname, rfl⟩
    obtain rfl := Found.file.inj (hread.symm.trans hread')
    exact ih name hname

/-- No file that can be built imports itself, directly or through others. -/
theorem Builds.acyclic (h : Builds disk a path t) : ¬ Relation.TransGen (Imports disk a) path path := by
  intro hcycle
  have hacc := h.acc.transGen
  rw [← Relation.transGen_swap] at hcycle
  clear h
  induction hacc with
  | intro path _ ih => exact ih path hcycle hcycle

end Builds

/-! ## What looking up files does to the sources -/

/-- The number of listed paths that are not among the sources. -/
def unseen (paths : List Text) (s : Sources) : Nat :=
  (paths.filter fun path => (s.lookup path).isNone).length

/-- What was looked up stays looked up. -/
def Keeps (s s' : Sources) : Prop := ∀ path entry, s.lookup path = some entry → s'.lookup path = some entry

theorem Keeps.unseen_le {s s' : Sources} (h : Keeps s s') (paths : List Text) :
    unseen paths s' ≤ unseen paths s := by
  refine List.Sublist.length_le (List.monotone_filter_right paths fun path hpath => ?_)
  cases hs : s.lookup path with
  | none => rfl
  | some entry => simp [h path entry hs] at hpath

section Entries

variable {s : Sources} {path other : Text} {entry : Option Tree}

theorem lookup_cons_self : ((path, entry) :: s : Sources).lookup path = some entry := by simp

theorem lookup_cons_of_ne (h : other ≠ path) :
    ((path, entry) :: s : Sources).lookup other = s.lookup other := by
  rw [List.lookup_cons, beq_false_of_ne h]

theorem keeps_cons (hnew : s.lookup path = none) : Keeps s ((path, entry) :: s) := by
  intro other known hknown
  have hne : other ≠ path := by
    rintro rfl
    rw [hnew] at hknown
    cases hknown
  rw [lookup_cons_of_ne hne, hknown]

theorem Keeps.close {s' : Sources} {e : Option Tree} (h : Keeps ((path, e) :: s) s')
    (hnew : s.lookup path = none) : Keeps s ((path, entry) :: s') := by
  intro other known hknown
  have hne : other ≠ path := by
    rintro rfl
    rw [hnew] at hknown
    cases hknown
  rw [lookup_cons_of_ne hne]
  exact h other known (keeps_cons hnew other known hknown)

/-- A file that is entered has no tree. -/
theorem lookup_of_enter {other : Text} {t : Tree}
    (h : ((path, none) :: s : Sources).lookup other = some (some t)) : s.lookup other = some (some t) := by
  have hne : other ≠ path := by
    rintro rfl
    rw [lookup_cons_self] at h
    cases h
  rwa [lookup_cons_of_ne hne] at h

/-- A path that is entered is not unseen any more. -/
theorem unseen_cons_lt {paths : List Text} (hmem : path ∈ paths) (hnew : s.lookup path = none) :
    unseen paths ((path, entry) :: s) < unseen paths s := by
  have hfilter : (paths.filter fun p => (((path, entry) :: s : Sources).lookup p).isNone) =
      (paths.filter fun p => (s.lookup p).isNone).filter fun p => p != path := by
    rw [List.filter_filter]
    refine List.filter_congr fun p _ => ?_
    by_cases hp : p = path
    · simp [hp]
    · simp [lookup_cons_of_ne hp, hp]
  rw [unseen, hfilter, unseen, List.length_filter_lt_length_iff_exists]
  exact ⟨path, List.mem_filter.2 ⟨hmem, by simp [hnew]⟩, by simp⟩

theorem mem_entered_iff : path ∈ entered s ↔ (path, none) ∈ s := by
  simp [entered]

theorem entered_cons_none : entered ((path, none) :: s) = path :: entered s := rfl

theorem not_mem_entered (hnew : s.lookup path = none) : path ∉ entered s := by
  rw [mem_entered_iff]
  intro hmem
  simpa using List.lookup_eq_none_iff.1 hnew _ hmem

end Entries

section Search

variable (disk : Disk) (a : Assembler)

/-- A tree among the sources that may be imported is the one that the file builds by itself, and the
trees of its imports are among the sources too. -/
def Sound (s : Sources) : Prop :=
  ∀ path t, s.lookup path = some (some t) → t.IsImportable →
    Builds disk a path t ∧
      ∀ target, Imports disk a path target → ∃ u, s.lookup target = some (some u) ∧ u.IsImportable

/-- What the search does to the sources. -/
structure Grows (s s' : Sources) : Prop where
  /-- No file is entered twice. -/
  nodup : (entered s).Nodup → (entered s').Nodup
  /-- Trees that may be imported are right. -/
  sound : Sound disk a s → Sound disk a s'

/-- What looking up a file yields, at any depth from a given one on. -/
structure Finds (depth : Nat) (dir name : Text) (s : Sources) (tree : Option Tree) (log : List Text)
    (s' : Sources) : Prop where
  /-- What is yielded does not depend on the depth. -/
  eq : ∀ d, depth ≤ d → resolve disk a d dir name s = .ok (tree, log, s')
  /-- The sources are extended. -/
  grows : Grows disk a s s'
  /-- A tree that is found is among the sources. -/
  found : ∀ t, tree = some t → s'.lookup (importPath dir name) = some (some t)

variable {disk a}

theorem Grows.refl (s : Sources) : Grows disk a s s :=
  ⟨id, id⟩

theorem Grows.trans {s s' s'' : Sources} (h : Grows disk a s s') (h' : Grows disk a s' s'') :
    Grows disk a s s'' :=
  ⟨h'.nodup ∘ h.nodup, h'.sound ∘ h.sound⟩

variable {s : Sources} {path : Text}

/-- A file may be entered before it is parsed. -/
theorem grows_enter (hnew : s.lookup path = none) : Grows disk a s ((path, none) :: s) where
  nodup h := by
    rw [entered_cons_none]
    exact List.nodup_cons.2 ⟨not_mem_entered hnew, h⟩
  sound h other t hother ht := by
    obtain ⟨hbuilds, himports⟩ := h other t (lookup_of_enter hother) ht
    refine ⟨hbuilds, fun target htarget => ?_⟩
    obtain ⟨u, hu, himportable⟩ := himports target htarget
    exact ⟨u, keeps_cons hnew target _ hu, himportable⟩

/-- A tree that was built from right trees takes the place of the entry without one. -/
theorem Sound.close (h : Sound disk a s) (hopen : s.lookup path = some none) {t : Tree}
    (ht : t.IsImportable → Builds disk a path t ∧
      ∀ target, Imports disk a path target → ∃ u, s.lookup target = some (some u) ∧ u.IsImportable) :
    Sound disk a ((path, some t) :: s) := by
  -- The entry without a tree is no tree of an import.
  have hkept : ∀ target u, s.lookup target = some (some u) →
      ((path, some t) :: s : Sources).lookup target = some (some u) := by
    intro target u hu
    have hne : target ≠ path := by
      rintro rfl
      rw [hopen] at hu
      cases hu
    rw [lookup_cons_of_ne hne, hu]
  intro other u hother hu
  have hcases : Builds disk a other u ∧
      ∀ target, Imports disk a other target → ∃ v, s.lookup target = some (some v) ∧ v.IsImportable := by
    by_cases hne : other = path
    · subst hne
      rw [lookup_cons_self] at hother
      cases hother
      exact ht hu
    · rw [lookup_cons_of_ne hne] at hother
      exact h other u hother hu
  refine ⟨hcases.1, fun target htarget => ?_⟩
  obtain ⟨v, hv, himportable⟩ := hcases.2 target htarget
  exact ⟨v, hkept target v hv, himportable⟩

/-- A file that was not looked up before is entered, its imports are looked up, and it gets its tree. -/
theorem Grows.close {s' : Sources} (h : Grows disk a ((path, none) :: s) s') (hnew : s.lookup path = none)
    (hopen : s'.lookup path = some none) {t : Tree}
    (ht : Sound disk a s' → t.IsImportable → Builds disk a path t ∧
      ∀ target, Imports disk a path target → ∃ u, s'.lookup target = some (some u) ∧ u.IsImportable) :
    Grows disk a s ((path, some t) :: s') where
  nodup := ((grows_enter hnew).trans h).nodup
  sound hsound := by
    have hsound' := ((grows_enter hnew).trans h).sound hsound
    exact hsound'.close hopen (ht hsound')

end Search

/-! ## The search -/

/-- The trees that were found, by name. -/
def filesOf (found : List (Text × Option Tree × List Text)) (name : Text) : Option Tree :=
  ((found.map fun (name, tree, _) => (name, tree)).lookup name).join

/-- The tree of a text for which these trees were found, with what there is to tell. -/
def parseFound (a : Assembler) (name text : Text) (found : List (Text × Option Tree × List Text)) :
    Tree × List Text :=
  let p := { a with files := filesOf found }.parse name text
  (p.tree, interleave p.events (found.map fun (_, _, log) => log) ++ p.tree.parseReport)

/-- The tree of a file once it was assembled, if it can be, with what there is to tell. -/
def finish (a : Assembler) (tree : Tree) (log : List Text) : Tree × List Text :=
  match a.assemble tree a.freshMemory with
  | none => (tree, log)
  | some r => (r.tree, log ++ [r.report])

section Equations

variable {disk : Disk} {a : Assembler} {depth : Nat} {dir name path text : Text} {s s' : Sources}

theorem resolve_of_known {known : Option Tree} (h : s.lookup (importPath dir name) = some known) :
    resolve disk a depth dir name s = .ok (known, [], s) := by
  unfold resolve
  simp only [h]

theorem resolve_of_failed (hnew : s.lookup (importPath dir name) = none) {e : FileError}
    (hread : disk.read (importPath dir name) = .failed e) :
    resolve disk a depth dir name s = .ok (none, [], s) := by
  unfold resolve
  simp only [hnew, hread]

theorem resolve_of_directory (hnew : s.lookup (importPath dir name) = none)
    (hread : disk.read (importPath dir name) = .directory) :
    resolve disk a depth dir name s = .ok (none, [], (importPath dir name, none) :: s) := by
  unfold resolve
  simp only [hnew, hread]

theorem resolve_of_file (hnew : s.lookup (importPath dir name) = none)
    (hread : disk.read (importPath dir name) = .file text) {tree : Tree} {log : List Text}
    (hparse : parse a (resolve disk a depth (Path.dir (importPath dir name))) (importPath dir name) text
      ((importPath dir name, none) :: s) = .ok (tree, log, s')) :
    resolve disk a (depth + 1) dir name s =
      .ok (some (finish a tree log).1, (finish a tree log).2,
        (importPath dir name, some (finish a tree log).1) :: s') := by
  unfold resolve
  simp only [hnew, hread, hparse, finish, bind, Except.bind]
  cases a.assemble tree a.freshMemory <;> rfl

theorem parse_of_found {find : Text → Action (Option Tree)}
    {found : List (Text × Option Tree × List Text)}
    (h : resolveAll find (a.importNames name text) s = .ok (found, s')) :
    parse a find name text s =
      .ok ((parseFound a name text found).1, (parseFound a name text found).2, s') := by
  have hfiles : filesOf found = fun n => ((found.map fun (name, tree, _) => (name, tree)).lookup n).join :=
    rfl
  rw [Assembler.importNames] at h
  simp only [parse, parseFound, hfiles, h, bind, Except.bind, pure, Except.pure]

theorem resolveAll_cons {find : Text → Action (Option Tree)} {names : List Text} {tree : Option Tree}
    {log : List Text} {s'' : Sources} {found : List (Text × Option Tree × List Text)}
    (hfind : find name s = .ok (tree, log, s')) (hrest : resolveAll find names s' = .ok (found, s'')) :
    resolveAll find (name :: names) s = .ok ((name, tree, log) :: found, s'') := by
  simp only [resolveAll, hfind, hrest, bind, Except.bind]
  rfl

theorem filesOf_cons (name other : Text) (tree : Option Tree) (log : List Text)
    (found : List (Text × Option Tree × List Text)) :
    filesOf ((name, tree, log) :: found) other = if other = name then tree else filesOf found other := by
  unfold filesOf
  rw [List.map_cons, List.lookup_cons]
  by_cases h : other = name
  · simp [h]
  · simp [h, beq_false_of_ne h]

/-- A finished tree may be imported only if it was assembled without errors. -/
theorem exists_of_isImportable_finish {tree : Tree} {log : List Text}
    (h : (finish a tree log).1.IsImportable) :
    ∃ out, a.assemble tree a.freshMemory = some out ∧ out.errors = [] ∧ (finish a tree log).1 = out.tree := by
  unfold finish at h ⊢
  cases hout : a.assemble tree a.freshMemory with
  | none =>
    -- A tree without errors is assembled.
    rw [hout] at h
    simp [Assembler.assemble, h.errors] at hout
  | some out =>
    rw [hout] at h
    exact ⟨out, rfl, (Assembler.isImportable_assemble hout).2.1 h, rfl⟩

end Equations

section Keeps

variable {disk : Disk} {a : Assembler} {depth : Nat} {dir name : Text} {s s' : Sources} {log : List Text}

/-- Looking up a file leaves the sources as they are, enters the file without a tree, or gives the file a
tree after its imports were looked up. -/
theorem resolve_cases {tree : Option Tree} (h : resolve disk a depth dir name s = .ok (tree, log, s')) :
    s' = s ∨ s.lookup (importPath dir name) = none ∧
      (s' = (importPath dir name, none) :: s ∨
        ∃ k names found s₁ t, depth = k + 1 ∧
          resolveAll (resolve disk a k (Path.dir (importPath dir name))) names
            ((importPath dir name, none) :: s) = .ok (found, s₁) ∧
          s' = (importPath dir name, some t) :: s₁) := by
  cases hnew : s.lookup (importPath dir name) with
  | some known =>
    rw [resolve_of_known hnew] at h
    cases h
    exact .inl rfl
  | none =>
    refine (Classical.em (s' = s)).imp_right fun hne => ⟨rfl, ?_⟩
    -- The file is entered before its own imports are looked up, so that a cycle meets the entry.
    cases hread : disk.read (importPath dir name) with
    | unknown =>
      unfold resolve at h
      simp [hnew, hread] at h
    | failed e =>
      rw [resolve_of_failed hnew hread] at h
      cases h
      exact absurd rfl hne
    | directory =>
      rw [resolve_of_directory hnew hread] at h
      cases h
      exact .inl rfl
    | file text =>
      cases depth with
      | zero =>
        unfold resolve at h
        simp only [hnew, hread] at h
        cases h
        exact absurd rfl hne
      | succ k =>
        cases hall : resolveAll (resolve disk a k (Path.dir (importPath dir name)))
            (a.importNames (importPath dir name) text) ((importPath dir name, none) :: s) with
        | error e =>
          unfold resolve at h
          rw [Assembler.importNames] at hall
          simp [hnew, hread, parse, hall, bind, Except.bind] at h
        | ok r =>
          rw [resolve_of_file hnew hread (parse_of_found hall), Except.ok.injEq, Prod.mk.injEq,
            Prod.mk.injEq] at h
          exact .inr ⟨k, _, r.1, r.2, _, rfl, hall, h.2.2.symm⟩

theorem Keeps.trans {s'' : Sources} (h : Keeps s s') (h' : Keeps s' s'') : Keeps s s'' :=
  fun path entry hentry => h' path entry (h path entry hentry)

theorem keeps_resolveAll {find : Text → Action (Option Tree)}
    (hfind : ∀ name s tree log s', find name s = .ok (tree, log, s') → Keeps s s') {names : List Text}
    {found : List (Text × Option Tree × List Text)} (h : resolveAll find names s = .ok (found, s')) :
    Keeps s s' := by
  -- By induction on the names: what the first lookup keeps, the others keep.
  induction names generalizing s found with
  | nil =>
    cases h
    exact fun _ _ => id
  | cons name names ih =>
    obtain ⟨⟨tree, log, s₁⟩, hname, h⟩ := exists_of_bind_eq_ok h
    obtain ⟨r, hrest, h⟩ := exists_of_bind_eq_ok h
    cases h
    exact (hfind name s tree log s₁ hname).trans (ih hrest)

/-- What was looked up stays looked up when another file is. -/
theorem keeps_resolve {tree : Option Tree} (h : resolve disk a depth dir name s = .ok (tree, log, s')) :
    Keeps s s' := by
  induction depth using Nat.strong_induction_on generalizing dir name s tree log s' with
  | _ depth ih =>
    rcases resolve_cases h with rfl | ⟨hnew, rfl | ⟨k, names, found, s₁, t, rfl, hall, rfl⟩⟩
    · exact fun _ _ => id
    · exact keeps_cons hnew
    · have hinner : Keeps ((importPath dir name, none) :: s) s₁ :=
        keeps_resolveAll (fun _ _ _ _ _ hfind => ih k (Nat.lt_succ_self k) hfind) hall
      exact hinner.close hnew

theorem keeps_resolveAll_resolve {names : List Text} {found : List (Text × Option Tree × List Text)}
    (h : resolveAll (resolve disk a depth dir) names s = .ok (found, s')) : Keeps s s' :=
  keeps_resolveAll (fun _ _ _ _ _ hfind => keeps_resolve hfind) h

end Keeps

section Total

variable {disk : Disk} {a : Assembler} {paths : List Text}

/-- Fewer files of a finite disk are unseen once a file is entered. -/
theorem unseen_enter_lt
    (hpaths : ∀ path text, disk.read (Path.clean path) = .file text → Path.clean path ∈ paths)
    {dir name text : Text} {s : Sources} (hnew : s.lookup (importPath dir name) = none)
    (hread : disk.read (importPath dir name) = .file text) :
    unseen paths ((importPath dir name, none) :: s) < unseen paths s := by
  refine unseen_cons_lt ?_ hnew
  rw [← clean_importPath dir name] at hread ⊢
  exact hpaths _ text hread

/-- The tree of a text for which right trees were found is right. -/
theorem builds_of_found {path text : Text} {s : Sources} (hread : disk.read path = .file text)
    (hsound : Sound disk a s) {found : List (Text × Option Tree × List Text)}
    (hfound : ∀ name t, filesOf found name = some t →
      s.lookup (importPath (Path.dir path) name) = some (some t))
    {out : Assembled}
    (hout : a.assemble (parseFound a path text found).1 a.freshMemory = some out) (herrors : out.errors = []) :
    Builds disk a path out.tree ∧
      ∀ target, Imports disk a path target → ∃ u, s.lookup target = some (some u) ∧ u.IsImportable := by
  -- The text has no errors, so every import was found and may be imported.
  have himports : ∀ name ∈ a.importNames path text, ∃ t, filesOf found name = some t ∧ t.IsImportable :=
    Assembler.isImportable_of_errors (a := { a with files := filesOf found })
      (Assembler.isImportable_assemble hout).1
  constructor
  · have : Nonempty Tree := ⟨{ file := path }⟩
    choose! trees hfiles himportable using himports
    exact .intro hread hfiles
      (fun name hname => (hsound _ _ (hfound name _ (hfiles name hname)) (himportable name hname)).1)
      hout herrors
  · rintro _ ⟨text', hread', name, hname, rfl⟩
    obtain rfl := Found.file.inj (hread.symm.trans hread')
    obtain ⟨t, ht, himportable⟩ := himports name hname
    exact ⟨t, hfound name t ht, himportable⟩

/-- Names are looked up one after the other. -/
theorem exists_resolveAll {depth : Nat} {dir : Text}
    (hfind : ∀ name s, unseen paths s ≤ depth → ∃ tree log s', Finds disk a depth dir name s tree log s')
    (names : List Text) (s : Sources) (hs : unseen paths s ≤ depth) :
    ∃ found s', (∀ d, depth ≤ d → resolveAll (resolve disk a d dir) names s = .ok (found, s')) ∧
      Grows disk a s s' ∧
      ∀ name t, filesOf found name = some t → s'.lookup (importPath dir name) = some (some t) := by
  induction names generalizing s with
  | nil => exact ⟨[], s, fun _ _ => rfl, .refl s, fun _ _ h => by cases h⟩
  | cons name names ih =>
    -- The depth suffices for the later names too, since a lookup leaves no more files unseen than before.
    obtain ⟨tree, log, s₁, hfinds⟩ := hfind name s hs
    have hkeeps := keeps_resolve (hfinds.eq depth le_rfl)
    obtain ⟨found, s₂, heq, hgrows, hfound⟩ := ih s₁ ((hkeeps.unseen_le paths).trans hs)
    refine ⟨(name, tree, log) :: found, s₂, fun d hd => resolveAll_cons (hfinds.eq d hd) (heq d hd),
      hfinds.grows.trans hgrows, fun other t ht => ?_⟩
    rw [filesOf_cons] at ht
    split_ifs at ht with hother
    · rw [hother]
      exact keeps_resolveAll_resolve (heq depth le_rfl) _ _ (hfinds.found t ht)
    · exact hfound other t ht

/-- A file is looked up to the end, whatever was looked up before, if the depth is at least the number of
files that were not. -/
theorem exists_finds (hknown : ∀ path, disk.read path ≠ .unknown)
    (hpaths : ∀ path text, disk.read (Path.clean path) = .file text → Path.clean path ∈ paths)
    (depth : Nat) (dir name : Text) (s : Sources) (hs : unseen paths s ≤ depth) :
    ∃ tree log s', Finds disk a depth dir name s tree log s' := by
  induction depth using Nat.strong_induction_on generalizing dir name s with
  | _ depth ih =>
    cases hnew : s.lookup (importPath dir name) with
    | some known =>
      refine ⟨known, [], s, fun d _ => resolve_of_known hnew, .refl s, fun t ht => ?_⟩
      rw [hnew, ht]
    | none =>
      cases hread : disk.read (importPath dir name) with
      | unknown => exact absurd hread (hknown _)
      | failed e =>
        exact ⟨none, [], s, fun d _ => resolve_of_failed hnew hread, .refl s, fun t ht => by cases ht⟩
      | directory =>
        exact ⟨none, [], _, fun d _ => resolve_of_directory hnew hread, grows_enter hnew,
          fun t ht => by cases ht⟩
      | file text =>
        -- The file itself was not looked up before, so the depth is not zero.
        have hlt := unseen_enter_lt hpaths hnew hread
        obtain ⟨k, rfl⟩ : ∃ k, depth = k + 1 := ⟨depth - 1, by omega⟩
        obtain ⟨found, s₁, heq, hgrows, hfound⟩ := exists_resolveAll
          (fun next s hs => ih k (Nat.lt_succ_self k) (Path.dir (importPath dir name)) next s hs)
          (a.importNames (importPath dir name) text) ((importPath dir name, none) :: s) (by omega)
        have hopen := keeps_resolveAll_resolve (heq k le_rfl) _ _ lookup_cons_self
        let parsed := parseFound a (importPath dir name) text found
        let finished := finish a parsed.1 parsed.2
        refine ⟨some finished.1, finished.2, (importPath dir name, some finished.1) :: s₁, fun d hd => ?_,
          hgrows.close hnew hopen fun hsound himportable => ?_, fun t ht => ?_⟩
        · obtain ⟨d, rfl⟩ : ∃ d', d = d' + 1 := ⟨d - 1, by omega⟩
          exact resolve_of_file hnew hread (parse_of_found (heq d (by omega)))
        · obtain ⟨out, hout, herrors, htree⟩ := exists_of_isImportable_finish himportable
          rw [htree]
          exact builds_of_found hread hsound hfound hout herrors
        · rw [← ht, lookup_cons_self]

end Total

/-! ## Files that build by themselves are found -/

section Complete

variable {disk : Disk} {a : Assembler} {paths : List Text}

/-- What looking up files that build by themselves does to the sources. -/
structure Completes (disk : Disk) (a : Assembler) (s s' : Sources) : Prop where
  /-- Trees are those that the files build by themselves. -/
  agrees : (∀ path t u, s.lookup path = some (some t) → Builds disk a path u → t = u) →
    ∀ path t u, s'.lookup path = some (some t) → Builds disk a path u → t = u
  /-- No file is left without a tree. -/
  closes : ∀ path, s'.lookup path = some none → s.lookup path = some none

theorem Completes.refl (s : Sources) : Completes disk a s s :=
  ⟨id, fun _ => id⟩

theorem Completes.trans {s s' s'' : Sources} (h : Completes disk a s s') (h' : Completes disk a s' s'') :
    Completes disk a s s'' :=
  ⟨h'.agrees ∘ h.agrees, fun path hpath => h.closes path (h'.closes path hpath)⟩

theorem Completes.close {s s' : Sources} {path : Text} (h : Completes disk a ((path, none) :: s) s')
    {t : Tree} (ht : Builds disk a path t) : Completes disk a s ((path, some t) :: s') where
  agrees hs other u v hother hv := by
    -- The file itself has got its tree; every other file was settled while it was open.
    by_cases hne : other = path
    · subst hne
      rw [lookup_cons_self] at hother
      cases hother
      exact ht.unique hv
    · rw [lookup_cons_of_ne hne] at hother
      exact h.agrees (fun x u v hx hv => hs x u v (lookup_of_enter hx) hv) other u v hother hv
  closes other hother := by
    have hne : other ≠ path := by
      rintro rfl
      rw [lookup_cons_self] at hother
      cases hother
    rw [lookup_cons_of_ne hne] at hother
    have hentered := h.closes other hother
    rwa [lookup_cons_of_ne hne] at hentered

/-- A file that builds by itself is found, unless a file that it leads to is being parsed. -/
structure IsReady (disk : Disk) (a : Assembler) (path : Text) (s : Sources) : Prop where
  /-- Trees are those that the files build by themselves. -/
  agrees : ∀ path t u, s.lookup path = some (some t) → Builds disk a path u → t = u
  /-- What the file leads to is not being parsed. -/
  closed : ∀ target, s.lookup target = some none → ¬ Relation.ReflTransGen (Imports disk a) path target

theorem IsReady.completes {path : Text} {s s' : Sources} (h : IsReady disk a path s)
    (hs : Completes disk a s s') : IsReady disk a path s' :=
  ⟨hs.agrees h.agrees, fun target htarget => h.closed target (hs.closes target htarget)⟩

/-- The imports of a file that is entered can be looked up. -/
theorem IsReady.enter {path target : Text} {t : Tree} {s : Sources} (h : IsReady disk a path s)
    (ht : Builds disk a path t) (htarget : Imports disk a path target) :
    IsReady disk a target ((path, none) :: s) where
  agrees other u v hother hv := h.agrees other u v (lookup_of_enter hother) hv
  closed other hother hreach := by
    by_cases hne : other = path
    · -- Otherwise the file would lead back to itself.
      exact ht.acyclic (.head' htarget (hne ▸ hreach))
    · rw [lookup_cons_of_ne hne] at hother
      exact h.closed other hother (.head htarget hreach)

/-- Files that build by themselves are found one after the other. -/
theorem resolveAll_of_builds {depth : Nat} {dir : Text} {trees : Text → Tree} {names : List Text}
    (hfind : ∀ name ∈ names, ∀ s, unseen paths s ≤ depth → IsReady disk a (importPath dir name) s →
      ∃ log s', resolve disk a depth dir name s = .ok (some (trees name), log, s') ∧ Completes disk a s s')
    {s : Sources} (hs : unseen paths s ≤ depth)
    (hready : ∀ name ∈ names, IsReady disk a (importPath dir name) s) :
    ∃ found s', resolveAll (resolve disk a depth dir) names s = .ok (found, s') ∧ Completes disk a s s' ∧
      ∀ name ∈ names, filesOf found name = some (trees name) := by
  induction names generalizing s with
  | nil => exact ⟨[], s, rfl, .refl s, by simp⟩
  | cons name names ih =>
    obtain ⟨hname, hnames⟩ := List.forall_mem_cons.1 hfind
    obtain ⟨hfirst, hothers⟩ := List.forall_mem_cons.1 hready
    obtain ⟨log, s₁, heq, hcompletes⟩ := hname s hs hfirst
    obtain ⟨found, s₂, heqs, hcompletes', hfound⟩ := ih hnames
      (((keeps_resolve heq).unseen_le paths).trans hs) fun other hother =>
        (hothers other hother).completes hcompletes
    refine ⟨(name, some (trees name), log) :: found, s₂, resolveAll_cons heq heqs,
      hcompletes.trans hcompletes', fun other hother => ?_⟩
    rw [filesOf_cons]
    split_ifs with hne
    · rw [hne]
    · exact hfound other ((List.mem_cons.1 hother).resolve_left hne)

/-- The tree of a text is that which the file builds by itself, if the same trees are found. -/
theorem finish_of_found {path text : Text} {files : Text → Option Tree} {trees : Text → Tree} {out : Assembled}
    (hfiles : ∀ name ∈ a.importNames path text, files name = some (trees name))
    (hout : a.assemble ({ a with files }.parse path text).tree a.freshMemory = some out)
    {found : List (Text × Option Tree × List Text)}
    (hfound : ∀ name ∈ a.importNames path text, filesOf found name = some (trees name)) :
    a.assemble (parseFound a path text found).1 a.freshMemory = some out := by
  have hagree : ∀ name ∈ a.importNames path text, filesOf found name = files name := by
    intro name hname
    rw [hfound name hname, hfiles name hname]
  rw [parseFound, Assembler.parse_congr hagree]
  exact hout

/-- A file that builds by itself is found with its tree. -/
theorem Builds.resolve_eq {path : Text} {t : Tree} (h : Builds disk a path t)
    (hpaths : ∀ path text, disk.read (Path.clean path) = .file text → Path.clean path ∈ paths)
    {depth : Nat} {dir name : Text} {s : Sources} (hpath : importPath dir name = path)
    (hs : unseen paths s ≤ depth) (hready : IsReady disk a path s) :
    ∃ log s', resolve disk a depth dir name s = .ok (some t, log, s') ∧ Completes disk a s s' := by
  -- By induction on how the file is built. The files not seen yet bound the depth that is left.
  induction h generalizing depth dir name s with
  | @intro path text files trees out hread hfiles himports hout herrors ih =>
    have hbuilds : Builds disk a path out.tree := .intro hread hfiles himports hout herrors
    subst hpath
    cases hnew : s.lookup (importPath dir name) with
    | some known =>
      -- An open entry would be a cycle through the file, which cannot be built then.
      cases known with
      | none => exact absurd .refl (hready.closed _ hnew)
      | some u =>
        rw [resolve_of_known hnew, hready.agrees _ u _ hnew hbuilds]
        exact ⟨[], s, rfl, .refl s⟩
    | none =>
      have hlt := unseen_enter_lt hpaths hnew hread
      obtain ⟨k, rfl⟩ : ∃ k, depth = k + 1 := ⟨depth - 1, by omega⟩
      obtain ⟨found, s₁, heq, hcompletes, hfound⟩ := resolveAll_of_builds
        (fun next hnext s hs hready => ih next hnext rfl hs hready)
        (show unseen paths ((importPath dir name, none) :: s) ≤ k by omega)
        (fun next hnext => hready.enter hbuilds ⟨text, hread, next, hnext, rfl⟩)
      have hassemble := finish_of_found hfiles hout hfound
      have hfinish : (finish a (parseFound a (importPath dir name) text found).1
          (parseFound a (importPath dir name) text found).2).1 = out.tree := by
        rw [finish, hassemble]
      have hresolve := resolve_of_file hnew hread (parse_of_found heq)
      rw [hfinish] at hresolve
      exact ⟨_, _, hresolve, hcompletes.close hbuilds⟩

end Complete

/-! ## Whole builds -/

/-- The outcome of building a file with a given tree. -/
def outcome (a : Assembler) (tree : Tree) (log : List Text) (sources : Sources) : Build :=
  match a.assemble tree a.freshMemory with
  | none => { log, sources, result := .error (.broken tree.errors) }
  | some r =>
    { log := log ++ [r.report], sources
      result := if r.errors.isEmpty then .ok r else .error (.unassembled r.errors) }

section Run

variable {disk : Disk} {a : Assembler} {file text : Text} {tree : Tree} {log : List Text} {sources : Sources}

theorem sources_outcome : (outcome a tree log sources).sources = sources := by
  unfold outcome
  split <;> rfl

theorem result_outcome_eq_ok_iff {r : Assembled} :
    (outcome a tree log sources).result = .ok r ↔
      a.assemble tree a.freshMemory = some r ∧ r.errors = [] := by
  unfold outcome
  cases hout : a.assemble tree a.freshMemory with
  | none => simp
  | some out =>
    simp only [Option.some.injEq]
    split_ifs with herrors
    · simp only [Except.ok.injEq, iff_self_and]
      rintro rfl
      exact List.isEmpty_iff.1 herrors
    · simp only [false_iff, not_and]
      rintro rfl
      simpa using herrors

theorem run_of_file (hread : disk.read file = .file text)
    (hparse : parse a (resolve disk a (disk.size + 1) (Path.dir file)) file text [(Path.clean file, none)] =
      .ok (tree, log, sources)) :
    run disk a file = .ok (outcome a tree log sources) := by
  simp only [run, outcome, hread, hparse, bind, Except.bind]
  cases a.assemble tree a.freshMemory <;> rfl

/-- What is looked up does not depend on what the disk says about its size. -/
theorem resolve_size (n depth : Nat) : resolve { disk with size := n } a depth = resolve disk a depth := by
  induction depth with
  | zero =>
    funext dir name s
    unfold resolve
    rfl
  | succ depth ih =>
    funext dir name s
    unfold resolve
    simp only [ih]

/-- A file that builds by itself can be built. -/
theorem Builds.exists_run {path : Text} {t : Tree} (h : Builds disk a path t) (hdisk : disk.IsFinite)
    (hclean : Path.clean path = path) : ∃ b r, run disk a path = .ok b ∧ b.result = .ok r := by
  obtain ⟨paths, hlength, hpaths⟩ := hdisk.bounded
  have hready : IsReady disk a path [] := ⟨by simp, by simp⟩
  have hbuilds := h
  cases h with
  | @intro _ text files trees out hread hfiles himports hout herrors =>
    obtain ⟨found, s', heq, -, hfound⟩ := resolveAll_of_builds
      (fun name hname s hs hready => (himports name hname).resolve_eq hpaths rfl hs hready)
      (show unseen paths [(path, none)] ≤ disk.size + 1 from
        (List.length_filter_le _ _).trans (hlength.trans (Nat.le_succ _)))
      (fun name hname => hready.enter hbuilds ⟨text, hread, name, hname, rfl⟩)
    have hparse : parse a (resolve disk a (disk.size + 1) (Path.dir path)) path text
        [(Path.clean path, none)] =
          .ok ((parseFound a path text found).1, (parseFound a path text found).2, s') := by
      rw [hclean]
      exact parse_of_found heq
    exact ⟨_, out, run_of_file hread hparse,
      result_outcome_eq_ok_iff.2 ⟨finish_of_found hfiles hout hfound, herrors⟩⟩

/-- The build of a file on a finite disk ends, at any depth that the number of files allows, and enters no
file twice. It succeeds only if the imports that the file leads to are files that build by themselves,
and none of them leads back to itself or to the file. -/
theorem exists_run_acyclic (hdisk : disk.IsFinite) (a : Assembler) (file : Text) :
    ∃ b, (∀ n, disk.size ≤ n → run { disk with size := n } a file = .ok b) ∧ (entered b.sources).Nodup ∧
      ∀ r, b.result = .ok r →
        (∃ text, disk.read file = .file text) ∧
        ∀ target, Relation.TransGen (Imports disk a) file target →
          target ≠ Path.clean file ∧ ¬ Relation.TransGen (Imports disk a) target target ∧
          (∃ text, disk.read target = .file text) ∧
          ∃ own out, run disk a target = .ok own ∧ own.result = .ok out := by
  cases hread : disk.read file with
  | unknown => exact absurd hread (hdisk.known file)
  | failed e =>
    exact ⟨{ result := .error (.unopened file e) }, fun n _ => by simp only [run, hread], List.nodup_nil,
      fun r hr => by cases hr⟩
  | directory =>
    exact ⟨{ result := .error (.unread file .isDirectory) }, fun n _ => by simp only [run, hread],
      List.nodup_nil, fun r hr => by cases hr⟩
  | file text =>
    obtain ⟨paths, hlength, hpaths⟩ := hdisk.bounded
    have hentered : Grows disk a [] [(Path.clean file, none)] := grows_enter rfl
    obtain ⟨found, s', heq, hgrows, hfound⟩ := exists_resolveAll
      (fun name s hs => exists_finds hdisk.known hpaths (disk.size + 1) (Path.dir file) name s hs)
      (a.importNames file text) [(Path.clean file, none)]
      ((List.length_filter_le _ _).trans (hlength.trans (Nat.le_succ _)))
    refine ⟨outcome a (parseFound a file text found).1 (parseFound a file text found).2 s', fun n hn => ?_,
      ?_, fun r hr => ⟨⟨text, rfl⟩, fun target htarget => ?_⟩⟩
    · refine run_of_file hread (parse_of_found ?_)
      rw [resolve_size]
      exact heq (n + 1) (Nat.succ_le_succ hn)
    · rw [sources_outcome]
      exact (hentered.trans hgrows).nodup List.nodup_nil
    · have hsound := (hentered.trans hgrows).sound (by intro path t h; cases h)
      obtain ⟨hout, herrors⟩ := result_outcome_eq_ok_iff.1 hr
      have himports := (builds_of_found hread hsound hfound hout herrors).2
      -- Everything the file leads to is among the sources, with a tree that may be imported.
      have hreach : ∃ u, s'.lookup target = some (some u) ∧ u.IsImportable := by
        induction htarget with
        | single hfirst => exact himports _ hfirst
        | tail _ hnext ih =>
          obtain ⟨u, hu, himportable⟩ := ih
          exact (hsound _ u hu himportable).2 _ hnext
      obtain ⟨u, hu, himportable⟩ := hreach
      have hbuilds := (hsound target u hu himportable).1
      refine ⟨?_, hbuilds.acyclic, hbuilds.exists_read, ?_⟩
      · -- The file itself is among the sources without a tree.
        rintro rfl
        rw [keeps_resolveAll_resolve (heq _ le_rfl) _ _ lookup_cons_self] at hu
        cases hu
      · refine hbuilds.exists_run hdisk ?_
        obtain ⟨_, -, _, -, _, -, rfl⟩ := Relation.TransGen.tail'_iff.1 htarget
        exact clean_importPath _ _

/-- Two files of a directory import the same file of the directory above. -/
def diamondDisk : Disk :=
  (FileTree.ofList
    [("main.s", "#import \"lib/left.s\"\n#import \"./lib/right.s\"\nstart: JMP start\n"),
      ("lib/left.s", "#import \"../common.s\"\nleft: RTS\n"),
      ("lib/right.s", "#import \"../lib/../common.s\"\nright: JMP right\n"),
      ("common.s", " INX\n")]).disk

theorem exists_run_acyclic_diamond :
    let a := Assembler.ofArchitecture Mos6502.architecture
    diamondDisk.IsFinite ∧ Relation.TransGen (Imports diamondDisk a) "main.s" "common.s" ∧
      ∃ b r, run diamondDisk a "main.s" = .ok b ∧ b.result = .ok r ∧ (entered b.sources).Nodup ∧
        ∀ target, Relation.TransGen (Imports diamondDisk a) "main.s" target →
          target ≠ "main.s" ∧ ¬ Relation.TransGen (Imports diamondDisk a) target target ∧
          (∃ text, diamondDisk.read target = .file text) ∧
          ∃ own out, run diamondDisk a target = .ok own ∧ own.result = .ok out := by
  intro a
  have hdisk : diamondDisk.IsFinite := FileTree.isFinite_disk _
  have hleft : Imports diamondDisk a "main.s" "lib/left.s" :=
    ⟨_, rfl, "lib/left.s", by decide +kernel, by decide⟩
  have hcommon : Imports diamondDisk a "lib/left.s" "common.s" :=
    ⟨_, rfl, "../common.s", by decide +kernel, by decide⟩
  obtain ⟨b, hrun, hnodup, hok⟩ := exists_run_acyclic hdisk a "main.s"
  have hmain : run diamondDisk a "main.s" = .ok b := hrun _ le_rfl
  have hsucceeds : ((run diamondDisk a "main.s").toOption.bind fun b => b.result.toOption).isSome := by
    decide +kernel
  rw [hmain] at hsucceeds
  cases hresult : b.result with
  | error e => simp [hresult, Except.toOption] at hsucceeds
  | ok r => exact ⟨hdisk, .tail (.single hleft) hcommon, b, r, hmain, hresult, hnodup, (hok r hresult).2⟩

-- Files that import each other are not built.
example :
    let disk := (FileTree.ofList [("main.s", "#import \"loop.s\"\n"), ("loop.s", "#import \"main.s\"\n")]).disk
    ((run disk (.ofArchitecture Mos6502.architecture) "main.s").toOption.map fun b => b.result.toOption.isSome) =
      some false := by
  decide +kernel

end Run

end Build

end EightBit
