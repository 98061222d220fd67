import Mathlib
import EightBit.Proofs.Encodable
import EightBit.Proofs.Execution

/-!
# The range of branches

The operand of a branch is a distance of one byte, which the processor adds to the address of the next
instruction and cuts to the address space. So a branch in the last bytes of the address space can lead to its
first ones, and the other way round. The assembler takes the distance between the addresses as they are: it
refuses every branch that the processor cannot take, and also those that lead across the end of the address
space.

* `Mos6502.Reaches`: the processor can branch from one address to another one; `Mos6502.reaches_iff` says so
  in terms of operands.
* `Mos6502.Crosses`: two addresses that are near each other only across the end of the address space.
* `Encoding.failure?`: what goes wrong with a statement; `Tree.errors_assemble` collects it.
* `Mos6502.branch_refused_iff`: which branches of a program are refused.
-/

namespace EightBit

/-- The difference of two words that are not too large, as two's complement. -/
theorem Word.toInt_sub {x y : UInt64} (hx : x.toNat < 2 ^ 62) (hy : y.toNat < 2 ^ 62) :
    toInt (x - y) = (x.toNat : Int) - y.toNat := by
  rw [toInt, BitVec.toInt_eq_toNat_bmod, UInt64.toNat_toBitVec, UInt64.toNat_sub, Int.bmod]
  split_ifs <;> omega

/-! ## What goes wrong with statements -/

namespace Encoding

/-- What goes wrong with a statement. -/
def failure? (enc : Encoding) (n : Node) : Option AssemblyError :=
  match enc.emit? n with
  | some (.error e) => some e
  | _ => none

/-- The errors among what is emitted for statements. -/
theorem filterMap_failure? (enc : Encoding) (ns : List Node) :
    ((ns.filterMap enc.emit?).filterMap fun
      | .ok _ => none
      | .error e => some e) = ns.filterMap enc.failure? := by
  refine (List.filterMap_filterMap).trans (List.filterMap_congr fun n _ => ?_)
  unfold failure?
  rcases enc.emit? n with _ | (_ | _) <;> rfl

/-- An instruction of the table with an operand that has a value fails as its operand bits do. -/
theorem failure?_of_value {enc : Encoding} {n : Node} {mnemonic : Text} {mode : Mode} {op : Operand}
    (helement : n.element = .instruction mnemonic mode (some op))
    (hentry : (enc.arch.table.lookup? mnemonic mode).isSome) (hoperand : mode.operand.isSome)
    (hsize : 0 < mode.operandSize) {v : UInt64} (hvalue : enc.value op = .ok v) :
    enc.failure? n =
      match enc.operandBits mode (n.addr + mode.length.toUInt64) v with
      | .error e => some (.at n e)
      | .ok _ => none := by
  obtain ⟨entry, hentry⟩ := Option.isSome_iff_exists.1 hentry
  obtain rfl := Table.mode_of_lookup? hentry
  have hraw : enc.rawOperand entry.mode (n.addr + entry.mode.length.toUInt64) (some op) =
      enc.operandBits entry.mode (n.addr + entry.mode.length.toUInt64) v := by
    rw [rawOperand, if_pos ⟨hoperand, hsize⟩]
    simp only [hvalue, bind, Except.bind]
  simp only [failure?, emit?, helement, instruction_eq hentry, hraw]
  cases enc.operandBits entry.mode (n.addr + entry.mode.length.toUInt64) v <;> rfl

end Encoding

/-- The errors of a program are those of the layout, and then what goes wrong with each statement. -/
theorem Tree.errors_assemble (arch : Architecture) (origin : UInt64) (wrapBranches : Bool) (m : Memory)
    (t : Tree) :
    (t.assemble arch origin wrapBranches m).errors = (t.layout arch origin).2 ++
      (t.assemble arch origin wrapBranches m).tree.nodes.filterMap
        (Encoding.failure? { arch, wrapBranches, labels := (t.layout arch origin).1.labels }) :=
  congrArg ((t.layout arch origin).2 ++ ·) (Encoding.filterMap_failure? _ _)

/-- What the statements of an assembled tree are encoded with. -/
def Assembler.encoding (a : Assembler) (out : Assembled) : Encoding where
  arch := a.arch
  wrapBranches := a.wrapBranches
  labels := out.tree.labels

namespace Mos6502

/-! ## Branches of the processor -/

/-- The processor can branch from an address to another one: a distance of one byte from the next instruction
leads there, in an address space of 16 bits. -/
def Reaches (addr target : UInt64) : Prop :=
  ∃ d : Int, -128 ≤ d ∧ d ≤ 127 ∧ (addr.toNat + 2 + d) % 2 ^ 16 = target.toNat

/-- A branch that the processor can take, but only across the end of the address space: from its last bytes
to its first ones, or back. -/
def Crosses (addr target : UInt64) : Prop :=
  target.toNat + 2 ^ 16 ≤ addr.toNat + 129 ∨ addr.toNat + 2 ^ 16 ≤ target.toNat + 126

instance (addr target : UInt64) : Decidable (Crosses addr target) :=
  inferInstanceAs (Decidable (_ ∨ _))

/-- The processor can branch to the addresses that the operands of branches lead to. -/
theorem reaches_iff (c : Cpu) (addr target : UInt64) :
    Reaches addr target ↔ ∃ raw, (Addressing.rel.resolve c raw addr).address = some target := by
  have hresolve : ∀ raw, (Addressing.rel.resolve c raw addr).address = some target ↔
      (addr.toNat + 2 + Word.signExtend raw 1) % 2 ^ 16 = target.toNat := by
    intro raw
    have hmask : Word.mask 16 = 0xFFFF := by decide
    have htwo : Addressing.rel.length.toUInt64.toNat = 2 := rfl
    rw [Addressing.resolve, Option.some.injEq, ← hmask, ← UInt64.toNat_inj, Word.toNat_and_mask _ (by decide),
      UInt64.toNat_add, UInt64.toNat_add, Word.toNat_ofInt, htwo]
    omega
  have hrange : ∀ raw, -128 ≤ Word.signExtend raw 1 ∧ Word.signExtend raw 1 ≤ 127 := by
    intro raw
    rw [Word.signExtend_one_eq, Int.bmod]
    split_ifs <;> omega
  constructor
  · rintro ⟨d, hlow, hhigh, hd⟩
    -- The word of the distance is one of the operands that stand for it.
    have hback : Word.signExtend (UInt64.ofInt d) 1 = d := by
      rw [Word.signExtend_one_eq, Word.toNat_ofInt, Int.bmod]
      split_ifs <;> omega
    exact ⟨UInt64.ofInt d, (hresolve _).2 (by rw [hback, hd])⟩
  · rintro ⟨raw, hraw⟩
    exact ⟨_, (hrange raw).1, (hrange raw).2, (hresolve raw).1 hraw⟩

section Range

variable {addr target : UInt64} (htarget : target.toNat < 2 ^ 16)

include htarget

/-- Inside the address space a branch can be taken and does not cross its end exactly if the distance between
the addresses is one of a byte. -/
theorem reaches_and_not_crosses_iff :
    Reaches addr target ∧ ¬ Crosses addr target ↔
      -128 ≤ (target.toNat : Int) - (addr.toNat + 2) ∧ (target.toNat : Int) - (addr.toNat + 2) ≤ 127 := by
  unfold Crosses
  constructor
  · rintro ⟨⟨d, hlow, hhigh, hd⟩, hcrosses⟩
    omega
  · rintro ⟨hlow, hhigh⟩
    exact ⟨⟨target.toNat - (addr.toNat + 2), hlow, hhigh, by omega⟩, by omega⟩

variable (haddr : addr.toNat < 2 ^ 16)

include haddr

/-- What crosses the end of the address space can be taken. -/
theorem reaches_of_crosses (h : Crosses addr target) : Reaches addr target := by
  rcases h with h | h
  · exact ⟨target.toNat + 2 ^ 16 - (addr.toNat + 2), by omega, by omega, by omega⟩
  · exact ⟨target.toNat - 2 ^ 16 - (addr.toNat + 2), by omega, by omega, by omega⟩

/-- A branch inside the address space is encoded if the distance between the addresses is one of a byte. -/
theorem operandBits_rel {enc : Encoding} (hwrap : enc.wrapBranches = false) :
    enc.operandBits Addressing.rel.mode (addr + Addressing.rel.mode.length.toUInt64) target =
      if -128 ≤ (target.toNat : Int) - (addr.toNat + 2) ∧ (target.toNat : Int) - (addr.toNat + 2) ≤ 127 then
        .ok ((target - (addr + 2)) &&& Word.mask 8)
      else .error .branchRange := by
  have hnext : (addr + 2).toNat = addr.toNat + 2 := by
    have htwo : (2 : UInt64).toNat = 2 := rfl
    rw [UInt64.toNat_add, htwo]
    omega
  -- Both addresses are far below the sign bit, so that the signed difference of the words is that of the
  -- numbers.
  have hdistance := Word.toInt_sub (x := target) (y := addr + 2) (by omega) (by omega)
  rw [hnext] at hdistance
  have hlimit : Int.pow 2 (8 * Addressing.rel.mode.operandSize - 1) = 128 := by decide
  have hlength : Addressing.rel.mode.length.toUInt64 = 2 := rfl
  rw [Encoding.operandBits, if_neg (by decide), hlength]
  simp only [hwrap, hlimit, hdistance, Bool.not_false, Bool.true_and, Bool.or_eq_true, decide_eq_true_eq]
  split_ifs
  · omega
  · rfl
  · rfl
  · omega

end Range

/-! ## Branches of programs -/

/-- The table has one mode with distances. -/
theorem mode_eq_rel {mnemonic : Text} {mode : Mode}
    (hentry : (architecture.table.lookup? mnemonic mode).isSome) (hrelative : mode.relative) :
    mode = Addressing.rel.mode := by
  obtain ⟨entry, hentry⟩ := Option.isSome_iff_exists.1 hentry
  obtain rfl := Table.mode_of_lookup? hentry
  rw [table_architecture] at hentry
  obtain ⟨op, a, -, heq⟩ := exists_of_mem_table (Table.mem_of_lookup? hentry)
  rw [heq] at hrelative ⊢
  have ha : a = .rel := by simpa [Addressing.mode] using hrelative
  rw [ha]

/-- Each statement of a program for the 6502 contributes its own error, and a branch inside the address space
is refused exactly if the processor cannot take it or if it leads across the end of the address space. What
the processor can take is told by the operands that it resolves. -/
theorem branch_refused_iff {a : Assembler} (ha : a.arch = architecture) (hwrap : a.wrapBranches = false)
    {t : Tree} (ht : t.BuiltFor architecture) {m : Memory} {out : Assembled} (hout : a.assemble t m = some out)
    {n : Node} (hn : n ∈ out.tree.nodes) {mnemonic : Text} {mode : Mode} {op : Operand}
    (helement : n.element = .instruction mnemonic mode (some op)) (hrelative : mode.relative)
    (haddr : n.addr.toNat < 2 ^ 16) {target : UInt64} (hvalue : (a.encoding out).value op = .ok target)
    (htarget : target.toNat < 2 ^ 16) :
    out.errors = (t.layout architecture a.origin).2 ++ out.tree.nodes.filterMap (a.encoding out).failure? ∧
      ((a.encoding out).failure? n = some (.at n .branchRange) ↔
        ¬ Reaches n.addr target ∨ Crosses n.addr target) ∧
      ((a.encoding out).failure? n = none ↔ Reaches n.addr target ∧ ¬ Crosses n.addr target) ∧
      (Crosses n.addr target → Reaches n.addr target) ∧
      ∀ c, Reaches n.addr target ↔ ∃ raw, (Addressing.rel.resolve c raw n.addr).address = some target := by
  have hencodable := ht.encodable isConsistent_architecture
  obtain ⟨-, rfl⟩ := Assembler.assemble_eq_some hout
  have hentry := hencodable.layout a.arch a.origin n hn
  rw [helement] at hentry
  obtain rfl := mode_eq_rel hentry.1 hrelative
  refine ⟨ha ▸ Tree.errors_assemble a.arch a.origin a.wrapBranches m t, ?_⟩
  rw [← and_assoc]
  refine ⟨?_, reaches_of_crosses htarget haddr, fun c => reaches_iff c n.addr target⟩
  have harch : (a.encoding (t.assemble a.arch a.origin a.wrapBranches m)).arch = architecture := ha
  have hfailure := Encoding.failure?_of_value helement (harch.symm ▸ hentry.1) rfl (by decide) hvalue
  rw [operandBits_rel htarget haddr hwrap] at hfailure
  have hnot : ¬ Reaches n.addr target ∨ Crosses n.addr target ↔
      ¬ (Reaches n.addr target ∧ ¬ Crosses n.addr target) := by
    rw [not_and_or, not_not]
  -- Both sides are told by the distance between the addresses.
  rw [hnot, reaches_and_not_crosses_iff htarget, hfailure]
  split_ifs with hbounds
  · exact ⟨iff_of_false (by simp) (not_not_intro hbounds), iff_of_true rfl hbounds⟩
  · exact ⟨iff_of_true rfl hbounds, iff_of_false (by simp) hbounds⟩

/-- The branches among some statements: the address, the value of the operand and what goes wrong. -/
def branches (enc : Encoding) (ns : List Node) : List (UInt64 × Option UInt64 × Option EncodeError) :=
  ns.filterMap fun n =>
    match n.element with
    | .instruction _ mode (some op) =>
      if mode.relative then some (n.addr, (enc.value op).toOption, (enc.failure? n).map (·.cause)) else none
    | _ => none

theorem exists_of_mem_branches {enc : Encoding} {ns : List Node} {addr target : UInt64}
    {cause : Option EncodeError} (h : (addr, some target, cause) ∈ branches enc ns) :
    ∃ n ∈ ns, n.addr = addr ∧ (enc.failure? n).map (·.cause) = cause ∧ ∃ mnemonic mode op,
      n.element = .instruction mnemonic mode (some op) ∧ mode.relative ∧ enc.value op = .ok target := by
  obtain ⟨n, hn, heq⟩ := List.mem_filterMap.1 h
  split at heq
  next mnemonic mode op helement =>
    split_ifs at heq with hrelative
    simp only [Option.some.injEq, Prod.mk.injEq] at heq
    obtain ⟨haddr, hvalue, hcause⟩ := heq
    refine ⟨n, hn, haddr, hcause, mnemonic, mode, op, helement, hrelative, ?_⟩
    cases hv : enc.value op with
    | ok v => rw [hv] at hvalue; exact congrArg _ (Option.some.inj hvalue)
    | error e => rw [hv] at hvalue; cases hvalue
  next => cases heq

/-- A branch to a label that is too far away. -/
def distantSource : Text := "start: NOP\n* = $0300\n BNE start\n"

theorem branch_refused_iff_distant :
    ∃ out, (Assembler.ofArchitecture architecture).assemble
        ((Assembler.ofArchitecture architecture).parse "demo" distantSource).tree (.empty 16 none) = some out ∧
      ∃ n ∈ out.tree.nodes, n.addr = 0x0300 ∧ ¬ Reaches 0x0300 0x0200 ∧
        ((Assembler.ofArchitecture architecture).encoding out).failure? n = some (.at n .branchRange) ∧
        AssemblyError.at n .branchRange ∈ out.errors := by
  set a := Assembler.ofArchitecture architecture
  have hcheck : (a.assemble (a.parse "demo" distantSource).tree (.empty 16 none)).map
      (fun out => branches (a.encoding out) out.tree.nodes) =
        some [(0x0300, some 0x0200, some .branchRange)] := by
    decide +kernel
  obtain ⟨out, hout, hbranches⟩ := Option.map_eq_some_iff.1 hcheck
  obtain ⟨n, hn, haddr, -, mnemonic, mode, op, helement, hrelative, hvalue⟩ := exists_of_mem_branches
    (hbranches.symm ▸ List.mem_singleton_self _ : (0x0300, some 0x0200, _) ∈ branches (a.encoding out) _)
  obtain ⟨herrors, hrefused, -⟩ := branch_refused_iff rfl rfl
    (.parse a rfl (fun _ _ h => nomatch h) "demo" distantSource) hout hn helement hrelative
    (by rw [haddr]; decide) hvalue (by decide)
  have hfar : ¬ Reaches 0x0300 0x0200 := by
    rintro ⟨d, hlow, hhigh, hd⟩
    have hnumbers : (0x0300 : UInt64).toNat = 0x0300 ∧ (0x0200 : UInt64).toNat = 0x0200 := by decide
    omega
  have hfailure := hrefused.2 (.inl (haddr ▸ hfar))
  refine ⟨out, hout, n, hn, haddr, hfar, hfailure, ?_⟩
  rw [herrors]
  exact List.mem_append_right _ (List.mem_filterMap.2 ⟨n, hn, hfailure⟩)

/-- An assembler that starts at the end of the address space. -/
def crossingAssembler : Assembler := { Assembler.ofArchitecture architecture with origin := 0xFFFE }

/-- A branch over one instruction. -/
def crossingSource : Text := " BNE over\n NOP\nover: RTS\n"

/-- A branch over one instruction is refused where it crosses the end of the address space, although the
processor can take it. -/
theorem crossing_branch_refused :
    ∃ out, crossingAssembler.assemble (crossingAssembler.parse "demo" crossingSource).tree (.empty 16 none) =
        some out ∧
      branches (crossingAssembler.encoding out) out.tree.nodes = [(0xFFFE, some 1, some .branchRange)] ∧
      Reaches 0xFFFE 1 := by
  have hcheck : (crossingAssembler.assemble (crossingAssembler.parse "demo" crossingSource).tree
      (.empty 16 none)).map (fun out => branches (crossingAssembler.encoding out) out.tree.nodes) =
        some [(0xFFFE, some 1, some .branchRange)] := by
    decide +kernel
  obtain ⟨out, hout, hbranches⟩ := Option.map_eq_some_iff.1 hcheck
  exact ⟨out, hout, hbranches, 1, by decide, by decide, by decide⟩

end Mos6502

end EightBit
