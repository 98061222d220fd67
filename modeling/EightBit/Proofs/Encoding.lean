import Mathlib
import EightBit.Assembly.Encode
import EightBit.Proofs.Failure

/-!
# Lengths of encodings

The layout reserves room for a statement before anything is encoded. Each encoder then fills exactly this
room: instructions by the length of their mode, data by the number of elements of each value, reserved
space by its count.

* `Encoding.length_valueBytes`, `Encoding.length_valuesBytes`: the bytes of values.
* `Encoding.instruction_eq`, `Encoding.exists_entry_of_instruction`: the rows of instructions.
* `Encoding.data_eq_ok`: the rows of data.
* `Encoding.emit?_eq_ok`: the row of any statement.
-/

namespace EightBit

theorem Element.size_data (directive : DataDirective) (values : List Operand) :
    (Element.data directive values).size = directive.size * (values.map Operand.elements).sum := by
  rw [Element.size, List.sum_eq_foldr, List.foldr_map]

theorem Table.mode_of_lookup? {t : Table} {mnemonic : Text} {mode : Mode} {e : Entry}
    (h : t.lookup? mnemonic mode = some e) : e.mode = mode := by
  have hfound := List.find?_some h
  simp only [Bool.and_eq_true, beq_iff_eq] at hfound
  exact hfound.2

namespace Encoding

variable {enc : Encoding}

/-- One value takes the room of its elements. -/
theorem length_valueBytes {size : Nat} {op : Operand} {bytes : List UInt8}
    (h : enc.valueBytes size op = .ok bytes) : bytes.length = size * op.elements := by
  unfold valueBytes at h
  unfold Operand.elements
  split at h
  next hstring =>
    rw [if_pos hstring]
    split at h
    next text htext =>
      cases h
      simp [htext, List.length_flatMap, Architecture.encode, Nat.mul_comm]
    next => cases h
  next hstring =>
    rw [if_neg hstring]
    obtain ⟨v, -, h⟩ := exists_of_bind_eq_ok h
    split at h
    · cases h
      simp [Architecture.encode]
    · cases h

/-- The values of a directive take the room of all their elements. -/
theorem length_valuesBytes {size : Nat} {values : List Operand} {bytes : List UInt8}
    (h : enc.valuesBytes size values = .ok bytes) :
    bytes.length = size * (values.map Operand.elements).sum := by
  induction values generalizing bytes with
  | nil =>
    cases h
    simp
  | cons op rest ih =>
    obtain ⟨first, hfirst, h⟩ := exists_of_bind_eq_ok h
    obtain ⟨more, hmore, h⟩ := exists_of_bind_eq_ok h
    cases h
    rw [List.length_append, length_valueBytes hfirst, ih hmore, List.map_cons, List.sum_cons, Nat.mul_add]

/-- The operand bits of an instruction; zero where the mode has no operand. -/
def rawOperand (enc : Encoding) (mode : Mode) (next : UInt64) (operand : Option Operand) :
    Except EncodeError UInt64 :=
  if mode.operand.isSome ∧ 0 < mode.operandSize then
    match operand with
    | none => .error .operandMissing
    | some op => enc.value op >>= enc.operandBits mode next
  else .ok 0

/-- The row of an instruction that is in the table. -/
theorem instruction_eq {mnemonic : Text} {mode : Mode} {entry : Entry}
    (hentry : enc.arch.table.lookup? mnemonic mode = some entry) (addr : UInt64)
    (operand : Option Operand) :
    enc.instruction addr mnemonic mode operand =
      (enc.rawOperand entry.mode (addr + entry.mode.length.toUInt64) operand).map fun raw =>
        { address := addr
          mnemonic := entry.mnemonic
          mode := some entry.mode
          operand := entry.mode.render raw (addr + entry.mode.length.toUInt64) enc.arch.addressMask
          bytes := entry.opcode :: enc.arch.encode raw entry.mode.operandSize } := by
  unfold instruction rawOperand
  simp only [hentry]
  split_ifs with hoperand
  · cases operand with
    | none => rfl
    | some op =>
      simp only
      cases enc.value op with
      | error e => rfl
      | ok v =>
        simp only [bind, Except.bind]
        cases enc.operandBits entry.mode (addr + entry.mode.length.toUInt64) v <;> rfl
  · rfl

/-- An instruction that has a row is in the table, and its bytes are the opcode and the operand bits. -/
theorem exists_entry_of_instruction {addr : UInt64} {mnemonic : Text} {mode : Mode} {operand : Option Operand}
    {row : Row} (h : enc.instruction addr mnemonic mode operand = .ok row) :
    ∃ entry raw, enc.arch.table.lookup? mnemonic mode = some entry ∧ entry.mode = mode ∧
      enc.rawOperand mode (addr + mode.length.toUInt64) operand = .ok raw ∧ row.address = addr ∧
      row.bytes = entry.opcode :: enc.arch.encode raw mode.operandSize := by
  cases hentry : enc.arch.table.lookup? mnemonic mode with
  | none =>
    unfold instruction at h
    simp [hentry, throw, throwThe, MonadExceptOf.throw] at h
  | some entry =>
    obtain rfl := Table.mode_of_lookup? hentry
    rw [instruction_eq hentry] at h
    obtain ⟨raw, hraw, rfl⟩ := exists_of_map_eq_ok h
    exact ⟨entry, raw, rfl, rfl, hraw, rfl, rfl⟩

/-- The row of an instruction stands at its address and is as long as its mode says. -/
theorem instruction_eq_ok {addr : UInt64} {mnemonic : Text} {mode : Mode} {operand : Option Operand}
    {row : Row} (h : enc.instruction addr mnemonic mode operand = .ok row) :
    row.address = addr ∧ row.bytes.length = max mode.length 1 ∧
      ∃ entry ∈ enc.arch.table.entries, entry.mode = mode := by
  obtain ⟨entry, raw, hentry, hmode, -, haddr, hbytes⟩ := exists_entry_of_instruction h
  refine ⟨haddr, ?_, entry, List.mem_of_find?_eq_some hentry, hmode⟩
  rw [hbytes, List.length_cons, Architecture.encode, ByteOrder.length_encode, Mode.operandSize]
  omega

/-- The row of data stands at its address and takes the room of its values. -/
theorem data_eq_ok {addr : UInt64} {directive : DataDirective} {values : List Operand} {row : Row}
    (h : enc.data addr directive values = .ok row) :
    row.address = addr ∧ row.bytes.length = directive.size * (values.map Operand.elements).sum := by
  obtain ⟨bytes, hbytes, h⟩ := exists_of_bind_eq_ok h
  cases h
  exact ⟨rfl, length_valuesBytes hbytes⟩

/-- A row stands at the address of its statement and fills the room of it, unless the table has an
instruction that takes no room. -/
theorem emit?_eq_ok {n : Node} {e : Emission} (h : enc.emit? n = some (.ok e)) :
    e.row.address = n.addr ∧ e.row.loc = n.loc ∧
      (e.row.bytes.length = n.size ∨ n.kind = .instruction ∧ e.row.bytes.length = 1 ∧
        ∃ entry ∈ enc.arch.table.entries, entry.mode.length = 0) := by
  unfold emit? at h
  simp only at h
  split at h
  next mnemonic mode operand hn =>
    cases hrow : enc.instruction n.addr mnemonic mode operand with
    | error err => simp [hrow] at h
    | ok row =>
      simp only [hrow, Option.some.injEq, Except.ok.injEq] at h
      subst h
      obtain ⟨haddr, hlen, entry, hentry, hmode⟩ := instruction_eq_ok hrow
      have hsize : n.size = mode.length := by rw [Node.size, hn]; rfl
      refine ⟨haddr, rfl, ?_⟩
      -- The opcode is always there, also where the mode has no room for it.
      rcases Nat.eq_zero_or_pos mode.length with hzero | hpos
      · exact .inr ⟨by rw [Node.kind, hn]; rfl, by simpa [hzero] using hlen, entry, hentry,
          by rw [hmode, hzero]⟩
      · exact .inl (by simp only [hlen, hsize]; omega)
  next directive values hn =>
    cases hrow : enc.data n.addr directive values with
    | error err => simp [hrow] at h
    | ok row =>
      simp only [hrow, Option.some.injEq, Except.ok.injEq] at h
      subst h
      obtain ⟨haddr, hlen⟩ := data_eq_ok hrow
      exact ⟨haddr, rfl, .inl (by rw [Node.size, hn, Element.size_data]; exact hlen)⟩
  next directive count hn =>
    simp only [Option.some.injEq, Except.ok.injEq] at h
    subst h
    exact ⟨rfl, rfl, .inl (by simp)⟩
  next => cases h

end Encoding

end EightBit
