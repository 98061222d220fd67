import Mathlib
import EightBit.Proofs.Consistency
import EightBit.Proofs.Operand

/-!
# Recognition of instructions

The modes of an architecture are tried by priority, and the first one in which the operand is written and for which
the mnemonic has an opcode is taken. So an instruction is recognised whenever the table has an entry for it, whatever
the letter case of the mnemonic. The priority of the 6502 is not by length: an indirect jump comes before the zero
page, and an absolute address before a distance. But no instruction has modes of both kinds, so that among the modes
of one instruction a shorter one does come first, and the instruction that is recognised is a shortest one.

* `Mode.Accepts`, `Mode.match?_eq_some_iff`: when operand tokens are written in a mode.
* `Architecture.Candidate`, `Architecture.exists_recognize_iff`: what a mnemonic and operand tokens may denote.
* `Mos6502.Operation.length_le`: among the modes of an instruction the priority is by length.
* `Mos6502.recognize_shortest`: the instruction that is recognised.
-/

namespace EightBit

namespace Mode

/-- Operand tokens are written in a mode if one of its patterns accepts those that are no blanks, one by one. -/
def Accepts (m : Mode) (ts : List Token) : Prop :=
  ∃ p ∈ m.patterns, List.Forall₂ (fun c t => c.accepts t) p.components (ts.filter fun t => !t.isSpace)

/-- The token at the operand position of a mode. -/
def operandToken? (m : Mode) (ts : List Token) : Option Token :=
  m.operand.bind ((ts.filter fun t => !t.isSpace)[·]?)

/-- A match yields the tokens that are no blanks, whichever of the patterns it is a match of. -/
theorem match?_eq_some_iff {m : Mode} (hspaced : ∀ p ∈ m.patterns, p.skipSpace) {ts : List Token}
    {tok : Option Token} : m.match? ts = some tok ↔ m.Accepts ts ∧ tok = m.operandToken? ts := by
  have hmatch : ∀ p ∈ m.patterns, ∀ {matched : List Token}, (∃ r, p.matchExact ts = some r ∧ r.tokens = matched) ↔
      List.Forall₂ (fun c t => c.accepts t) p.components matched ∧ (ts.filter fun t => !t.isSpace) = matched := by
    intro p hp matched
    obtain ⟨cs, skipSpace⟩ := p
    obtain rfl : skipSpace = true := hspaced _ hp
    exact Pattern.matchExact_spaced_iff
  rw [match?, Option.map_eq_some_iff]
  constructor
  · rintro ⟨r, hr, rfl⟩
    obtain ⟨p, hp, hexact⟩ := List.exists_of_findSome?_eq_some hr
    obtain ⟨haccepts, htokens⟩ := (hmatch p hp).1 ⟨r, hexact, rfl⟩
    rw [operandToken?, htokens]
    exact ⟨⟨p, hp, htokens ▸ haccepts⟩, rfl⟩
  · rintro ⟨⟨p, hp, haccepts⟩, rfl⟩
    obtain ⟨r, hexact, -⟩ := (hmatch p hp).2 ⟨haccepts, rfl⟩
    have hfound : (m.patterns.findSome? (·.matchExact ts)).isSome :=
      List.findSome?_isSome_iff.2 ⟨p, hp, by simp [hexact]⟩
    -- The first pattern that matches may be another one, but it yields the same tokens.
    obtain ⟨first, hfirst⟩ := Option.isSome_iff_exists.1 hfound
    obtain ⟨q, hq, hfirstExact⟩ := List.exists_of_findSome?_eq_some hfirst
    refine ⟨first, hfirst, ?_⟩
    rw [operandToken?, ((hmatch q hq).1 ⟨first, hfirstExact, rfl⟩).2]

end Mode

namespace Architecture

/-- What a mnemonic and operand tokens may denote: an entry of the table for the mnemonic in capitals, in whose mode
the tokens are written, with the token at the operand position of the mode. -/
structure Candidate (arch : Architecture) (mnemonic : Text) (operand : List Token) (e : Entry) (tok : Option Token) :
    Prop where
  entry : e ∈ arch.table.entries
  mnemonic : e.mnemonic = mnemonic.toUpper
  written : e.mode.Accepts operand
  token : tok = e.mode.operandToken? operand

/-- An architecture whose table can be relied on: it is consistent and lists mnemonics and modes, and blanks do not
matter in operands. -/
structure IsTabular (arch : Architecture) : Prop where
  table : arch.table.IsConsistent
  named : arch.table.Named
  listed : ∀ e ∈ arch.table.entries, e.mode ∈ arch.modes
  spaced : ∀ mode ∈ arch.modes, ∀ p ∈ mode.patterns, p.skipSpace

section

variable {arch : Architecture} {mnemonic : Text} {operand : List Token} {e : Entry} {tok : Option Token}

/-- The attempt at one mode. -/
def attempt (arch : Architecture) (mnemonic : Text) (operand : List Token) (mode : Mode) :
    Option (Entry × Option Token) :=
  (mode.match? operand).bind fun tok => (arch.table.lookup? mnemonic.toUpper mode).map fun e => (e, tok)

theorem recognize_eq_ok_iff {r : Entry × Option Token} : arch.recognize mnemonic operand = .ok r ↔
    arch.table.isKnown mnemonic.toUpper ∧ arch.modes.findSome? (arch.attempt mnemonic operand) = some r := by
  unfold recognize
  simp only
  split_ifs with hknown
  · simpa using fun h => absurd h (by simpa using hknown)
  · rw [show arch.table.isKnown mnemonic.toUpper = true by simpa using hknown]
    unfold attempt
    split
    next found hfound => simp [hfound]
    next hfound => simp [hfound]

/-- An attempt succeeds exactly for a candidate in the mode. -/
theorem attempt_eq_some_iff (harch : arch.IsTabular) {mode : Mode} (hmode : mode ∈ arch.modes) :
    arch.attempt mnemonic operand mode = some (e, tok) ↔ arch.Candidate mnemonic operand e tok ∧ e.mode = mode := by
  simp only [attempt, Option.bind_eq_some_iff, Option.map_eq_some_iff, Prod.mk.injEq,
    Mode.match?_eq_some_iff (harch.spaced mode hmode), harch.table.lookup?_iff, Text.toUpper_toUpper]
  constructor
  · rintro ⟨tok, ⟨hwritten, htoken⟩, e, ⟨he, hmnemonic, rfl⟩, rfl, rfl⟩
    exact ⟨⟨he, hmnemonic, hwritten, htoken⟩, rfl⟩
  · rintro ⟨⟨he, hmnemonic, hwritten, htoken⟩, rfl⟩
    exact ⟨tok, ⟨hwritten, htoken⟩, e, ⟨he, hmnemonic, rfl⟩, rfl, rfl⟩

/-- What is recognised is a candidate, and there is none in a mode of higher priority. -/
theorem recognize_cases (harch : arch.IsTabular) (h : arch.recognize mnemonic operand = .ok (e, tok)) :
    arch.Candidate mnemonic operand e tok ∧ ∃ before after, arch.modes = before ++ e.mode :: after ∧
      ∀ e' tok', arch.Candidate mnemonic operand e' tok' → e'.mode ∉ before := by
  obtain ⟨before, mode, after, hmodes, hattempt, hbefore⟩ :=
    List.findSome?_eq_some_iff.1 (recognize_eq_ok_iff.1 h).2
  obtain ⟨hcandidate, rfl⟩ := (attempt_eq_some_iff harch (by simp [hmodes])).1 hattempt
  refine ⟨hcandidate, before, after, hmodes, fun e' tok' hother hmem => ?_⟩
  have hnone := hbefore e'.mode hmem
  rw [(attempt_eq_some_iff harch (by simp [hmodes, hmem])).2 ⟨hother, rfl⟩] at hnone
  cases hnone

/-- An instruction is recognised exactly if there is a candidate. -/
theorem exists_recognize_iff (harch : arch.IsTabular) :
    (∃ r, arch.recognize mnemonic operand = .ok r) ↔ ∃ e tok, arch.Candidate mnemonic operand e tok := by
  constructor
  · rintro ⟨⟨e, tok⟩, h⟩
    exact ⟨e, tok, (recognize_cases harch h).1⟩
  · rintro ⟨e, tok, hcandidate⟩
    have hmode := harch.listed e hcandidate.entry
    have hfound : (arch.modes.findSome? (arch.attempt mnemonic operand)).isSome := by
      refine List.findSome?_isSome_iff.2 ⟨e.mode, hmode, ?_⟩
      rw [(attempt_eq_some_iff harch hmode).2 ⟨hcandidate, rfl⟩]
      rfl
    -- A mnemonic that has an entry is known.
    have hknown : arch.table.isKnown mnemonic.toUpper := by
      rw [Table.isKnown, Text.toUpper_toUpper, ← hcandidate.mnemonic]
      exact List.contains_iff_mem.2 (harch.named e hcandidate.entry)
    obtain ⟨r, hr⟩ := Option.isSome_iff_exists.1 hfound
    exact ⟨r, recognize_eq_ok_iff.2 ⟨hknown, hr⟩⟩

end

end Architecture

namespace Mos6502

theorem modes_architecture : architecture.modes = Addressing.all.map Addressing.mode := by
  simp only [architecture, Addressing.modes]

theorem isTabular_architecture : architecture.IsTabular where
  table := by
    rw [table_architecture, table]
    exact Table.isConsistent_build _ _
  named := by
    rw [table_architecture, table]
    exact Table.named_build _ _
  listed := by
    intro e he
    rw [table_architecture] at he
    obtain ⟨op, a, -, heq⟩ := exists_of_mem_table he
    rw [heq, modes_architecture]
    exact List.mem_map_of_mem a.mem_all
  spaced := by
    intro mode hmode
    rw [modes_architecture] at hmode
    obtain ⟨a, -, rfl⟩ := List.mem_map.1 hmode
    exact a.skipSpace_of_mem_patterns

/-- The modes that an instruction has an opcode for. -/
def Operation.modes (op : Operation) : List Addressing := op.opcodes.map Prod.fst

/-- Among the modes of one instruction the priority is by length. -/
theorem Operation.length_le (op : Operation) :
    Addressing.all.Pairwise fun a a' => a ∈ op.modes → a' ∈ op.modes → a.length ≤ a'.length := by
  cases op <;> decide

/-- Every way to write an operand has its operand position. -/
theorem Addressing.lt_length_of_mem_written (a : Addressing) {k : Nat} (hk : a.operand = some k) :
    ∀ cs ∈ a.written, k < cs.length := by
  cases a <;> cases hk <;> decide

section

variable {mnemonic : Text} {operand : List Token} {e : Entry} {tok : Option Token}

/-- The mode of a candidate is one of the instruction that the mnemonic names. -/
theorem exists_of_candidate (h : architecture.Candidate mnemonic operand e tok) :
    ∃ op : Operation, op.name = mnemonic.toUpper ∧ ∃ a ∈ op.modes, e.mode = a.mode := by
  have hentry := h.entry
  rw [table_architecture] at hentry
  obtain ⟨op, a, hopcode, heq⟩ := exists_of_mem_table hentry
  refine ⟨op, ?_, a, List.mem_map.2 ⟨_, hopcode, rfl⟩, by rw [heq]⟩
  rw [← h.mnemonic, heq]

/-- A candidate has an operand token if its mode has an operand. -/
theorem isSome_of_candidate (h : architecture.Candidate mnemonic operand e tok) :
    tok.isSome ↔ e.mode.operand.isSome := by
  obtain ⟨-, -, a, -, hmode⟩ := exists_of_candidate h
  obtain ⟨p, hp, haccepts⟩ := h.written
  rw [h.token, Mode.operandToken?]
  rw [hmode] at hp ⊢
  obtain ⟨cs, hcs, rfl⟩ := List.mem_map.1 hp
  change (a.operand.bind _).isSome ↔ a.operand.isSome
  cases hk : a.operand with
  | none => simp
  | some k =>
    have hlength : cs.length = (operand.filter fun t => !t.isSpace).length := haccepts.length_eq
    simpa [← hlength] using a.lt_length_of_mem_written hk cs hcs

/-- What is recognised is no longer than any other candidate. -/
theorem length_le_of_candidate (h : architecture.recognize mnemonic operand = .ok (e, tok)) {e' : Entry}
    {tok' : Option Token} (h' : architecture.Candidate mnemonic operand e' tok') :
    e.mode.length ≤ e'.mode.length := by
  obtain ⟨hcandidate, before, after, hmodes, hbefore⟩ := Architecture.recognize_cases isTabular_architecture h
  obtain ⟨op, hop, a, ha, hmode⟩ := exists_of_candidate hcandidate
  obtain ⟨op', hop', a', ha', hmode'⟩ := exists_of_candidate h'
  obtain rfl := Operation.name_injective (hop.trans hop'.symm)
  have hnot := hbefore e' tok' h'
  rw [hmode'] at hnot
  -- The modes of higher priority, and those of lower priority, of which the other candidate has one.
  rw [modes_architecture, hmode] at hmodes
  obtain ⟨first, rest, hall, rfl, hrest⟩ := List.map_eq_append_iff.1 hmodes
  obtain ⟨b, last, rfl, hb, rfl⟩ := List.map_eq_cons_iff.1 hrest
  obtain rfl := Addressing.mode_injective hb
  have hpriority := op.length_le
  rw [hall, List.pairwise_append, List.pairwise_cons] at hpriority
  have hmem := a'.mem_all
  rw [hall, List.mem_append, List.mem_cons] at hmem
  rw [hmode, hmode']
  change b.length ≤ a'.length
  rcases hmem with hfirst | rfl | hlast
  · exact absurd (List.mem_map_of_mem hfirst) hnot
  · exact le_rfl
  · exact hpriority.2.1.1 a' hlast ha ha'

end

/-- The instruction that a mnemonic in any letter case and operand tokens denote on the 6502. One is recognised exactly
if the table has an entry for the mnemonic in a mode in which the tokens are written. What is recognised is such an
entry, of which none is shorter, with the token at the operand position of its mode. -/
theorem recognize_shortest (mnemonic : Text) (operand : List Token) :
    ((∃ r, architecture.recognize mnemonic operand = .ok r) ↔
      ∃ e tok, architecture.Candidate mnemonic operand e tok) ∧
    ∀ e tok, architecture.recognize mnemonic operand = .ok (e, tok) →
      architecture.Candidate mnemonic operand e tok ∧ (tok.isSome ↔ e.mode.operand.isSome) ∧
        ∀ e' tok', architecture.Candidate mnemonic operand e' tok' → e.mode.length ≤ e'.mode.length := by
  refine ⟨Architecture.exists_recognize_iff isTabular_architecture, fun e tok h => ?_⟩
  obtain ⟨hcandidate, -⟩ := Architecture.recognize_cases isTabular_architecture h
  exact ⟨hcandidate, isSome_of_candidate hcandidate, fun e' tok' => length_le_of_candidate h⟩

/-- A blank and an address that is written with two digits. -/
def sampleOperand : List Token := [
  { kind := .whitespace, text := " ", id := 1 },
  { kind := .hex, text := "$12", id := 2 }]

/-- An address on the zero page is also one in memory, but the shorter instruction is recognised. -/
theorem recognize_shortest_zeroPage :
    architecture.Candidate "lDa" sampleOperand ⟨"LDA", Addressing.abs.mode, 0xAD⟩ sampleOperand[1]? ∧
      ∃ e tok, architecture.recognize "lDa" sampleOperand = .ok (e, tok) ∧ e.mode.length ≤ 2 := by
  have habs : architecture.Candidate "lDa" sampleOperand ⟨"LDA", Addressing.abs.mode, 0xAD⟩ sampleOperand[1]? := by
    refine ⟨?_, by decide, ⟨_, List.mem_cons_self, .cons (by decide) .nil⟩, by decide⟩
    rw [table_architecture]
    exact mem_table_iff.2 (by decide : (Addressing.abs, 0xAD) ∈ Operation.lda.opcodes)
  have hzpg : architecture.Candidate "lDa" sampleOperand ⟨"LDA", Addressing.zpg.mode, 0xA5⟩ sampleOperand[1]? := by
    refine ⟨?_, by decide, ⟨_, List.mem_cons_self, .cons (by decide) .nil⟩, by decide⟩
    rw [table_architecture]
    exact mem_table_iff.2 (by decide : (Addressing.zpg, 0xA5) ∈ Operation.lda.opcodes)
  obtain ⟨hcomplete, hshortest⟩ := recognize_shortest "lDa" sampleOperand
  obtain ⟨⟨e, tok⟩, h⟩ := hcomplete.2 ⟨_, _, hzpg⟩
  exact ⟨habs, e, tok, h, (hshortest e tok h).2.2 _ _ hzpg⟩

end Mos6502

end EightBit
