import Mathlib
import EightBit.Proofs.BranchRange
import EightBit.Proofs.Recognition
import EightBit.Proofs.Transfer

/-!
# Values of constant operands

An operand is cut to the room of its mode when it is encoded, without a word about what is lost. Nothing is ever lost:
the patterns of the modes accept a constant only if its size fits, and the size of a constant is found from its value.
So the bytes of an instruction stand for the value of its operand, and a branch to an address leads there.

* `fitsBytes_of_byteSize_le`: the size of a number tells its range.
* `Mos6502.Addressing.InRange`, `Mos6502.Addressing.exists_inRange`: the constants that a mode accepts.
* `Layout.InSpace`, `Tree.BuiltFor.inSpace`: instructions stand in the address space.
* `Mos6502.operand_not_truncated`: the operand bytes of an assembled program.
-/

namespace EightBit

/-! ## Sizes and ranges -/

/-- A number fits into as many bytes as it takes. -/
theorem fitsBytes_of_byteSize_le {v : Int} {size : Nat} (hsize : size < 8) (h : byteSize v ≤ size) :
    fitsBytes v size := by
  have hpos := one_le_byteSize v
  exact (byteSize_le_iff v (by omega) hsize).1 h

theorem lt_of_fitsBytes {v : Int} {size : Nat} (hv : 0 ≤ v) (h : fitsBytes v size) : v < 2 ^ (8 * size) := by
  simpa only [fitsBytes, if_neg (not_lt.2 hv), decide_eq_true_eq, Int.pow_eq] using h

theorem range_of_fitsBytes_one {v : Int} (h : fitsBytes v 1) : -128 ≤ v ∧ v ≤ 255 := by
  have hpow : Int.pow 2 (8 * 1 - 1) = 128 ∧ Int.pow 2 (8 * 1) = 256 := by decide
  simp only [fitsBytes, hpow] at h
  split_ifs at h <;> simp only [decide_eq_true_eq] at h <;> omega

namespace Component

/-- A constant is accepted for a size only if it has a value that fits. -/
theorem exists_of_accepts_fitting {d : Dialect} {size : Nat} (hsize : size < 8) {unsigned : Bool} {t : Token}
    (h : (fitting d size unsigned).accepts t) :
    ∃ v, t.valueIn d = .ok v ∧ fitsBytes v size ∧ (unsigned → 0 ≤ v) := by
  simp only [accepts, Bool.and_eq_true] at h
  cases hvalue : t.valueIn d with
  | error e => simp [Token.sizeIn, hvalue, Except.map] at h
  | ok v =>
    simp only [Token.sizeIn, hvalue, Except.map, Bool.and_eq_true, Bool.or_eq_true, Bool.not_eq_true',
      decide_eq_true_eq] at h
    obtain ⟨-, hbytes, hsign⟩ := h
    -- Written digits may only make a constant wider.
    refine ⟨v, rfl, fitsBytes_of_byteSize_le hsize ((le_max_left _ _).trans hbytes), fun hunsigned => ?_⟩
    simpa [hunsigned] using hsign

theorem accepts_fitting_of_isConstant {d : Dialect} {size : Nat} {unsigned : Bool} {t : Token}
    (ht : t.kind.isConstant) (h : (fittingOrWord d size unsigned).accepts t) : (fitting d size unsigned).accepts t := by
  refine (Bool.or_eq_true_iff.1 h).resolve_left fun hword => ?_
  have hkind : t.kind = .word := by simpa [word, accepts] using hword
  rw [hkind] at ht
  cases ht

end Component

namespace Mos6502

namespace Addressing

/-- What the operand of a mode has to be. -/
def component : Addressing → Option Component
  | imp | acc => none
  | imm => some immediate
  | idx | idy | zpx | zpy | zpg => some zeroPage
  | ind | abx | aby | abs | rel => some address

theorem getElem?_written (a : Addressing) {k : Nat} (hk : a.operand = some k) :
    ∀ cs ∈ a.written, cs[k]? = a.component := by
  cases a <;> cases hk <;> decide

/-- The values that the operand of a mode may have: a byte may be signed, addresses may not. -/
def InRange : Addressing → Int → Prop
  | imm, v => -128 ≤ v ∧ v ≤ 255
  | rel, v => 0 ≤ v ∧ v ≤ 65535
  | a, v => 0 ≤ v ∧ v < 2 ^ (8 * a.mode.operandSize)

/-- The token at the operand position is accepted as an operand. -/
theorem exists_accepts {a : Addressing} {ts : List Token} (h : a.mode.Accepts ts) {t : Token}
    (ht : a.mode.operandToken? ts = some t) : ∃ c ∈ a.component, c.accepts t := by
  obtain ⟨p, hp, haccepts⟩ := h
  obtain ⟨cs, hcs, rfl⟩ := List.mem_map.1 hp
  obtain ⟨k, hk, hget⟩ := Option.bind_eq_some_iff.1 ht
  obtain ⟨hlt, rfl⟩ := List.getElem?_eq_some_iff.1 hget
  have hlt' : k < cs.length := haccepts.length_eq ▸ hlt
  refine ⟨cs[k], ?_, haccepts.get hlt' hlt⟩
  rw [Option.mem_def, ← a.getElem?_written hk cs hcs, List.getElem?_eq_getElem hlt']

/-- A constant that is accepted as the operand of a mode is in the range of the mode. -/
theorem exists_inRange {a : Addressing} {c : Component} (hc : c ∈ a.component) {t : Token} (ht : c.accepts t)
    (hconstant : t.kind.isConstant) : ∃ v, t.valueIn dialect = .ok v ∧ a.InRange v := by
  have hunsigned : ∀ {size}, size < 8 → (Component.fitting dialect size true).accepts t →
      ∃ v, t.valueIn dialect = .ok v ∧ 0 ≤ v ∧ v < 2 ^ (8 * size) := by
    intro size hsize haccepts
    obtain ⟨v, hvalue, hfits, hsign⟩ := Component.exists_of_accepts_fitting hsize haccepts
    exact ⟨v, hvalue, hsign rfl, lt_of_fitsBytes (hsign rfl) hfits⟩
  have haddress : address.accepts t → ∃ v, t.valueIn dialect = .ok v ∧ 0 ≤ v ∧ v < 2 ^ (8 * 2) := fun haccepts =>
    hunsigned (by decide) (Component.accepts_fitting_of_isConstant hconstant haccepts)
  cases a with
  | imp => cases hc
  | acc => cases hc
  | imm =>
    cases hc
    obtain ⟨v, hvalue, hfits, -⟩ := Component.exists_of_accepts_fitting (by decide) ht
    exact ⟨v, hvalue, range_of_fitsBytes_one hfits⟩
  | idx => cases hc; exact hunsigned (by decide) ht
  | idy => cases hc; exact hunsigned (by decide) ht
  | zpx => cases hc; exact hunsigned (by decide) ht
  | zpy => cases hc; exact hunsigned (by decide) ht
  | zpg => cases hc; exact hunsigned (by decide) ht
  | ind => cases hc; exact haddress ht
  | abx => cases hc; exact haddress ht
  | aby => cases hc; exact haddress ht
  | abs => cases hc; exact haddress ht
  | rel =>
    cases hc
    obtain ⟨v, hvalue, hlow, hhigh⟩ := haddress ht
    exact ⟨v, hvalue, hlow, by omega⟩

end Addressing

end Mos6502

/-! ## Lines of instructions -/

/-- An instruction is parsed from a line that is recognised as one. -/
theorem Statement.exists_recognize {arch : Architecture} {head : Token} {args : List Token} {mnemonic : Text}
    {mode : Mode} {operand : Option Operand} (h : element arch head args = .ok (.instruction mnemonic mode operand)) :
    ∃ entry tok, arch.recognize head.text args = .ok (entry, tok) ∧ mnemonic = entry.mnemonic ∧ mode = entry.mode ∧
      operand = tok.map fun t => { token := t } := by
  obtain ⟨_, hother⟩ | ⟨_, hother⟩ | ⟨_, hother⟩ | ⟨directive, -, hdata⟩ | ⟨entry, tok, hfound, heq⟩ := element_cases h
  · cases hother
  · cases hother
  · cases hother
  · obtain hother | ⟨_, -, hother⟩ := data_cases hdata <;> cases hother
  · cases heq
    exact ⟨entry, tok, hfound, rfl, rfl, rfl⟩

theorem Node.IsParsed.exists_recognize {arch : Architecture} {n : Node} (h : n.IsParsed arch) {mnemonic : Text}
    {mode : Mode} {op : Operand} (helement : n.element = .instruction mnemonic mode (some op)) :
    ∃ head args entry, n.tokens = head :: args ∧ arch.recognize head.text args = .ok (entry, some op.token) ∧
      mnemonic = entry.mnemonic ∧ mode = entry.mode := by
  -- Operands get their labels later on, but they keep their tokens.
  have hinstruction : n.element.shape = .instruction mnemonic mode (some { token := op.token }) := by
    rw [helement]
    rfl
  rcases h with hshape | ⟨head, args, e, htokens, he, hshape⟩
  · rw [hinstruction] at hshape
    cases hshape
  · rw [hinstruction] at hshape
    cases e with
    | instruction mnemonic' mode' operand =>
      obtain ⟨entry, tok, hrecognize, rfl, rfl, rfl⟩ := Statement.exists_recognize he
      cases tok with
      | none => cases hshape
      | some t =>
        cases hshape
        exact ⟨head, args, entry, htokens, hrecognize, rfl, rfl⟩
    | _ => cases hshape

/-! ## Instructions stand in the address space -/

/-- A statement that stands in the address space if it is an instruction. -/
def Node.InSpace (arch : Architecture) (n : Node) : Prop :=
  n.kind = .instruction → n.addr &&& arch.addressMask = n.addr

namespace Layout

/-- Instructions stand in the address space, and so does the address of the next statement. Only labels wait for
another address. -/
structure InSpace (arch : Architecture) (s : Layout) : Prop where
  next : s.next &&& arch.addressMask = s.next
  pending : ∀ n ∈ s.pending, n.kind = .label
  placed : ∀ n ∈ s.placed, n.InSpace arch

variable {arch : Architecture}

theorem InSpace.step {s : Layout} (h : s.InSpace arch) {n : Node} (hn : n.InSpace arch) :
    (s.step arch n).InSpace arch := by
  have hplaced := placed_advance arch s n
  have hpending := forall_pending_advance arch (fun _ _ hk => hk) h.pending n
  -- An instruction is placed at the next address, unless it has one.
  have hself : (n.place (s.advance arch n).next).InSpace arch := by
    intro hkind
    have haddr := hn hkind
    rw [show (n.place _).kind = n.kind from rfl] at hkind
    have halign : n.element.alignment? = none := by
      cases helement : n.element <;> first | rfl | simp [Node.kind, Element.kind, helement] at hkind
    rw [advance_of_alignment?_eq_none arch s (by simp [hkind]) halign]
    cases haddress : n.address with
    | none => simpa [Node.place, Node.addr, haddress] using h.next
    | some addr => simpa [Node.place, Node.addr, haddress] using haddr
  unfold Layout.step
  simp only
  split
  next id hlabel =>
    refine ⟨by rw [UInt64.and_assoc, UInt64.and_self], ?_, ?_⟩
    · refine List.forall_mem_cons.2 ⟨?_, hpending⟩
      have helement : n.element = .label id := hlabel
      simp [Node.kind, Node.place, helement, Element.kind]
    · rw [hplaced]
      exact h.placed
  next =>
    refine ⟨by rw [UInt64.and_assoc, UInt64.and_self], by simp, List.forall_mem_cons.2 ⟨hself, fun k hk hkind => ?_⟩⟩
    rcases List.mem_append.1 hk with hk | hk
    · rw [hpending k hk] at hkind
      cases hkind
    · exact h.placed k (hplaced ▸ hk) hkind

/-- Statements keep the addresses that they have, and get others from the address space. -/
theorem inSpace_run (origin : UInt64) (labels : LabelTable) {ns : List Node}
    (hns : ∀ n ∈ ns, n.InSpace arch) :
    (run arch origin labels ns).InSpace arch := by
  induction ns using List.reverseRecOn with
  | nil => exact ⟨by simp [run, UInt64.and_assoc], by simp [run], by simp [run]⟩
  | append_singleton ns n ih =>
    rw [run_concat]
    exact (ih fun k hk => hns k (List.mem_append_left _ hk)).step (hns n (by simp))

theorem InSpace.nodes {s : Layout} (h : s.InSpace arch) : ∀ n ∈ s.nodes, n.InSpace arch := by
  intro n hn hkind
  rcases List.mem_append.1 (List.mem_reverse.1 hn) with hn | hn
  · rw [h.pending n hn] at hkind
    cases hkind
  · exact h.placed n hn hkind

end Layout

theorem Tree.BuiltFor.inSpace {arch : Architecture} {t : Tree} (h : t.BuiltFor arch) :
    ∀ n ∈ t.nodes, n.InSpace arch := by
  induction h with
  | parse a _ _ name text _ =>
    intro n hn _
    rw [Node.addr, (a.unplaced_parse name text).nodes n hn]
    simp
  | @assemble a ha t _ m out hout ih =>
    obtain ⟨-, rfl⟩ := Assembler.assemble_eq_some hout
    subst ha
    intro n hn
    have hnodes : (t.assemble a.arch a.origin a.wrapBranches m).tree.nodes =
        (Layout.run a.arch a.origin t.labels t.nodes).nodes := nodes_layout a.arch a.origin t
    exact (Layout.inSpace_run a.origin t.labels ih).nodes n (hnodes ▸ hn)

/-! ## Bytes of operands -/

/-- The lowest bits of the word of an integer. -/
theorem Word.toNat_ofInt_and_mask (v : Int) {n : Nat} (hn : n < 64) :
    ((UInt64.ofInt v &&& mask n).toNat : Int) = v % 2 ^ n := by
  have hdvd : (2 ^ n : Int) ∣ 2 ^ 64 := pow_dvd_pow 2 hn.le
  have hpos : 0 ≤ v % 2 ^ 64 := Int.emod_nonneg v (by decide)
  rw [toNat_and_mask _ hn, toNat_ofInt, Int.natCast_mod, Int.toNat_of_nonneg hpos, Nat.cast_pow, Nat.cast_ofNat,
    Int.emod_emod_of_dvd v hdvd]

/-- The sign of a small word is that of its lowest byte. -/
theorem Word.signExtend_and_mask {x : UInt64} (hlow : -128 ≤ toInt x) (hhigh : toInt x < 128) :
    signExtend (x &&& mask 8) 1 = toInt x := by
  have hrange : -128 ≤ signExtend (x &&& mask 8) 1 ∧ signExtend (x &&& mask 8) 1 ≤ 127 := by
    rw [signExtend_one_eq, Int.bmod]
    split_ifs <;> omega
  rw [← toInt_ofInt (i := signExtend (x &&& mask 8) 1) (by omega) (by omega), ofInt_signExtend_one hlow hhigh]

namespace Encoding

variable {enc : Encoding}

theorem value_of_isConstant {op : Operand} (hop : op.token.kind.isConstant) {v : Int}
    (hvalue : op.token.valueIn enc.arch.dialect = .ok v) : enc.value op = .ok (UInt64.ofInt v) := by
  have hword : op.isWord = false := by
    cases hkind : op.token.kind <;> simp [Operand.isWord, hkind, TokenKind.isConstant] at hop ⊢
  simp [value, hword, hvalue]

/-- An instruction that does not fail is emitted. -/
theorem exists_emit?_of_failure? {n : Node} {mnemonic : Text} {mode : Mode} {operand : Option Operand}
    (helement : n.element = .instruction mnemonic mode operand) (h : enc.failure? n = none) :
    ∃ e, enc.emit? n = some (.ok e) := by
  unfold failure? at h
  unfold emit? at h ⊢
  simp only [helement] at h ⊢
  cases hrow : enc.instruction n.addr mnemonic mode operand with
  | ok row => exact ⟨_, rfl⟩
  | error e => simp [hrow] at h

end Encoding

/-- What is emitted for a statement is in the program, if it has bytes. -/
theorem Assembler.mem_rows_of_emit? {a : Assembler} {t : Tree} {m : Memory} {out : Assembled}
    (hout : a.assemble t m = some out) {n : Node} (hn : n ∈ out.tree.nodes) {e : Emission}
    (hemit : (a.encoding out).emit? n = some (.ok e)) (hbytes : e.row.bytes ≠ []) : e.row ∈ out.program.rows := by
  obtain ⟨-, rfl⟩ := assemble_eq_some hout
  refine List.mem_filter.2 ⟨List.mem_map_of_mem (List.mem_filterMap.2 ⟨.ok e, ?_, rfl⟩), by simpa using hbytes⟩
  exact List.mem_filterMap.2 ⟨n, hn, hemit⟩

namespace Mos6502

theorem isTabular_ordered (order : Option ByteOrder) : (ordered order).IsTabular :=
  ⟨isTabular_architecture.table, isTabular_architecture.named, isTabular_architecture.listed,
    isTabular_architecture.spaced⟩

/-- A mode that has an operand has room for it. -/
theorem Addressing.operandSize_of_component {addressing : Addressing} {c : Component} (h : c ∈ addressing.component) :
    addressing.mode.operand.isSome ∧ 0 < addressing.mode.operandSize ∧ addressing.mode.operandSize < 8 := by
  cases addressing <;> first | decide | cases h

/-- The operand bytes of an instruction at an address stand for a value. -/
structure Carries (a : Assembler) (addressing : Addressing) (addr : UInt64) (operand : List UInt8) (v : Int) :
    Prop where
  /-- The bytes fill the room of the operand. -/
  length : operand.length = addressing.mode.operandSize
  /-- The value is in the range of the mode. -/
  range : addressing.InRange v
  /-- The bytes stand for the value up to its sign. -/
  decoded : addressing ≠ .rel → ((a.arch.decode operand).toNat : Int) = v % 2 ^ (8 * addressing.mode.operandSize)
  /-- The byte of a branch is the distance of the value from the next instruction. -/
  distance : addressing = .rel → a.wrapBranches = false →
    (addr.toNat + addressing.mode.length : Int) + Word.signExtend (a.arch.decode operand) 1 = v

section Bytes

variable {a : Assembler} {addressing : Addressing} {v : Int} {raw : UInt64}

theorem carries_of_ne_rel (hrel : addressing ≠ .rel) (hrange : addressing.InRange v)
    (hsize : addressing.mode.operandSize < 8) {enc : Encoding} {next : UInt64} (addr : UInt64)
    (hbits : enc.operandBits addressing.mode next (UInt64.ofInt v) = .ok raw) :
    Carries a addressing addr (a.arch.encode raw addressing.mode.operandSize) v := by
  have hrelative : addressing.mode.relative = false := by cases addressing <;> first | rfl | exact absurd rfl hrel
  rw [Encoding.operandBits, hrelative] at hbits
  obtain rfl := Except.ok.inj hbits
  refine ⟨ByteOrder.length_encode _ _ _, hrange, fun _ => ?_, fun h => absurd h hrel⟩
  rw [Architecture.decode, Architecture.encode, ByteOrder.decode_encode _ _ hsize, UInt64.and_assoc, UInt64.and_self,
    Word.toNat_ofInt_and_mask v (by omega)]

theorem carries_rel (hrange : Addressing.rel.InRange v) {enc : Encoding} (hwrap : enc.wrapBranches = a.wrapBranches)
    {addr : UInt64} (haddr : addr.toNat < 2 ^ 16)
    (hbits : enc.operandBits Addressing.rel.mode (addr + Addressing.rel.mode.length.toUInt64) (UInt64.ofInt v) =
      .ok raw) :
    Carries a .rel addr (a.arch.encode raw Addressing.rel.mode.operandSize) v := by
  refine ⟨ByteOrder.length_encode _ _ _, hrange, fun h => absurd rfl h, fun _ hrefuse => ?_⟩
  -- The value is an address, so that its word is not cut off.
  have htarget : ((UInt64.ofInt v).toNat : Int) = v := by
    rw [Word.toNat_ofInt]
    have hlow := hrange.1
    have hhigh := hrange.2
    omega
  have hbelow : (UInt64.ofInt v).toNat < 2 ^ 16 := by
    have hhigh := hrange.2
    omega
  rw [operandBits_rel hbelow haddr (hwrap.trans hrefuse)] at hbits
  split_ifs at hbits with hnear
  obtain rfl := Except.ok.inj hbits
  -- The distance is one of a byte, so that its lowest byte is all of it.
  have hnext : (addr + 2).toNat = addr.toNat + 2 := by
    have htwo : (2 : UInt64).toNat = 2 := rfl
    rw [UInt64.toNat_add, htwo]
    omega
  have hdistance := Word.toInt_sub (x := UInt64.ofInt v) (y := addr + 2) (by omega) (by omega)
  have hsize : Addressing.rel.mode.operandSize = 1 := rfl
  have hlength : (Addressing.rel.mode.length : Int) = 2 := rfl
  rw [hnext] at hdistance
  rw [Architecture.decode, Architecture.encode, ByteOrder.decode_encode _ _ (by decide), hsize, UInt64.and_assoc,
    UInt64.and_self, Word.signExtend_and_mask (by omega) (by omega), hdistance, hlength]
  omega

end Bytes

/-- The operands of instructions are never cut off: where a line of a program for the 6502 is recognised as an
instruction with a constant operand, and is assembled without an error, the constant has a value in the range of the
mode, and the operand bytes in the program stand for this value. -/
theorem operand_not_truncated (order : Option ByteOrder) {a : Assembler} (ha : a.arch = ordered order) {t : Tree}
    (ht : t.BuiltFor (ordered order)) {m : Memory} {out : Assembled} (hout : a.assemble t m = some out) {n : Node}
    (hn : n ∈ out.tree.nodes) {mnemonic : Text} {mode : Mode} {op : Operand}
    (helement : n.element = .instruction mnemonic mode (some op)) (hconstant : op.token.kind.isConstant)
    (hok : (a.encoding out).failure? n = none) :
    ∃ head args entry addressing v, n.tokens = head :: args ∧
      a.arch.recognize head.text args = .ok (entry, some op.token) ∧ entry.mnemonic = mnemonic ∧
      entry.mode = mode ∧ mode = addressing.mode ∧ op.token.valueIn a.arch.dialect = .ok v ∧
      ∃ row ∈ out.program.rows, ∃ operand, row.address = n.addr ∧ row.bytes = entry.opcode :: operand ∧
        Carries a addressing n.addr operand v := by
  have hbuilt : out.tree.BuiltFor (ordered order) := .assemble a ha ht m hout
  obtain ⟨head, args, entry, htokens, hrecognize, rfl, rfl⟩ := (hbuilt.isParsed n hn).exists_recognize helement
  -- The value is that of the component which the mode has for its operand.
  have htabular := isTabular_ordered order
  obtain ⟨hcandidate, -⟩ := Architecture.recognize_cases htabular hrecognize
  obtain ⟨operation, addressing, -, heq⟩ := exists_of_mem_table (table_ordered order ▸ hcandidate.entry)
  have hmode : entry.mode = addressing.mode := by rw [heq]
  obtain ⟨c, hc, haccepts⟩ := Addressing.exists_accepts (hmode ▸ hcandidate.written)
    (hmode ▸ hcandidate.token.symm)
  obtain ⟨v, hvalue, hrange⟩ := Addressing.exists_inRange hc haccepts hconstant
  have hdialect : a.arch.dialect = dialect := by rw [ha]; rfl
  refine ⟨head, args, entry, addressing, v, htokens, ha ▸ hrecognize, rfl, rfl, hmode, hdialect ▸ hvalue, ?_⟩
  -- The bytes are those of the bits of this value.
  obtain ⟨hoperand, hpos, hsize⟩ := Addressing.operandSize_of_component hc
  obtain ⟨e, hemit⟩ := Encoding.exists_emit?_of_failure? helement hok
  rw [hmode] at helement
  obtain ⟨found, word, raw, hfound, hword, hbits, hbytes⟩ := Encoding.exists_bits_of_emit? helement hoperand hpos hemit
  obtain rfl : found = entry := by
    have harch : (a.encoding out).arch = ordered order := ha
    rw [harch, ← hmode, (htabular.table.found entry hcandidate.entry).2] at hfound
    exact (Option.some.inj hfound).symm
  obtain rfl : word = UInt64.ofInt v := Except.ok.inj
    (hword.symm.trans (Encoding.value_of_isConstant hconstant (hdialect ▸ hvalue)))
  refine ⟨e.row, Assembler.mem_rows_of_emit? hout hn hemit (by simp [hbytes]), _,
    (Encoding.emit?_eq_ok hemit).1, hbytes, ?_⟩
  by_cases hrel : addressing = .rel
  · subst hrel
    refine carries_rel hrange rfl ?_ hbits
    have hspace := hbuilt.inSpace n hn (by rw [Node.kind, helement]; rfl)
    rw [addressMask_ordered] at hspace
    rw [← hspace]
    exact (Word.toNat_and_mask n.addr (n := 16) (by decide)).trans_lt (Nat.mod_lt _ (by decide))
  · exact carries_of_ne_rel hrel hrange hsize n.addr hbits

/-- The constant operands among the statements that are assembled: the address, the mode and the value. -/
def constants (enc : Encoding) (ns : List Node) : List (UInt64 × Mode × Int) :=
  ns.filterMap fun n =>
    match n.element with
    | .instruction _ mode (some op) =>
      if op.token.kind.isConstant ∧ (enc.failure? n).isNone then
        (op.token.valueIn enc.arch.dialect).toOption.map (n.addr, mode, ·)
      else none
    | _ => none

theorem exists_of_mem_constants {enc : Encoding} {ns : List Node} {addr : UInt64} {mode : Mode} {v : Int}
    (h : (addr, mode, v) ∈ constants enc ns) :
    ∃ n ∈ ns, n.addr = addr ∧ enc.failure? n = none ∧ ∃ mnemonic op,
      n.element = .instruction mnemonic mode (some op) ∧ op.token.kind.isConstant ∧
        op.token.valueIn enc.arch.dialect = .ok v := by
  obtain ⟨n, hn, heq⟩ := List.mem_filterMap.1 h
  split at heq
  next mnemonic mode' op helement =>
    split_ifs at heq with hcond
    obtain ⟨v', hvalue, heq⟩ := Option.map_eq_some_iff.1 heq
    simp only [Prod.mk.injEq] at heq
    obtain ⟨haddr, rfl, rfl⟩ := heq
    refine ⟨n, hn, haddr, Option.isNone_iff_eq_none.1 hcond.2, mnemonic, op, helement, hcond.1, ?_⟩
    cases hread : op.token.valueIn enc.arch.dialect with
    | error e => simp [hread, Except.toOption] at hvalue
    | ok w => simpa [hread, Except.toOption] using hvalue
  next => cases heq

/-- A negative byte, an address and a branch back to the start. -/
def constantSource : Text := " LDA #-2\n STA $1234\n BNE $0200\n"

theorem operand_not_truncated_constants :
    ∃ out, (Assembler.ofArchitecture (ordered (some .big))).assemble
        ((Assembler.ofArchitecture (ordered (some .big))).parse "demo" constantSource).tree (.empty 16 none) =
          some out ∧
      ∀ p ∈ [((0x0200 : UInt64), Addressing.imm, (-2 : Int)), (0x0202, .abs, 0x1234), (0x0205, .rel, 0x0200)],
        ∃ row ∈ out.program.rows, ∃ opcode operand, row.address = p.1 ∧ row.bytes = opcode :: operand ∧
          Carries (Assembler.ofArchitecture (ordered (some .big))) p.2.1 p.1 operand p.2.2 := by
  set a := Assembler.ofArchitecture (ordered (some .big))
  have hcheck : (a.assemble (a.parse "demo" constantSource).tree (.empty 16 none)).map
      (fun out => constants (a.encoding out) out.tree.nodes) =
        some ([(0x0200, Addressing.imm, -2), (0x0202, .abs, 0x1234), (0x0205, .rel, 0x0200)].map
          fun p => (p.1, p.2.1.mode, p.2.2)) := by
    decide +kernel
  obtain ⟨out, hout, hconstants⟩ := Option.map_eq_some_iff.1 hcheck
  refine ⟨out, hout, fun p hp => ?_⟩
  obtain ⟨n, hn, haddr, hok, mnemonic, op, helement, hconstant, hvalue⟩ := exists_of_mem_constants
    (hconstants.symm ▸ List.mem_map_of_mem hp : (p.1, p.2.1.mode, p.2.2) ∈ constants (a.encoding out) _)
  obtain ⟨-, -, entry, addressing, v, -, -, -, -, hmode, hread, row, hrow, operand, haddress, hbytes, hcarries⟩ :=
    operand_not_truncated (some .big) rfl (.parse a rfl (fun _ _ h => by cases h) "demo" constantSource) hout hn
      helement hconstant hok
  obtain rfl := Addressing.mode_injective hmode
  obtain rfl := Except.ok.inj (hread.symm.trans hvalue)
  rw [haddr] at haddress hcarries
  exact ⟨row, hrow, entry.opcode, operand, haddress, hbytes, hcarries⟩

end Mos6502

end EightBit
