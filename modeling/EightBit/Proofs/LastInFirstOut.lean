import Mathlib
import EightBit.Proofs.Machine

/-!
# The stack is last-in first-out

The stack of the 6502 is a page of memory with a pointer that wraps around in it. As long as no more than the 256
bytes of the page are on the stack, it cannot be told from a list of values: whatever is pushed and pulled in
between, a pull gives the value that was pushed last and is still there.

* `Stack.Action`, `Stack.actAll`: pushes and pulls of bytes and words, one after the other.
* `Stack.itemsAfter`: what these do to a list of values.
* `Mos6502.Stacked`: bytes are in the page of the stack.
* `Mos6502.Holds`: bytes are on the stack, and everything else is as in an earlier state.
* `Mos6502.Holds.act`, `Mos6502.Holds.actAll`: what a push or a pull, and a series of them, does to these bytes.
* `Mos6502.stack_lastInFirstOut`: the stack behaves as the list.
-/

namespace EightBit

namespace RegisterFile

variable {f g : Register → Register} {name : Text} {rs : RegisterFile}

/-- Changing a register twice is one change. -/
theorem update_update (hf : ∀ r, (f r).definition = r.definition) :
    (rs.update name f).update name g = rs.update name (g ∘ f) := by
  unfold update
  induction rs with
  | nil => rfl
  | cons r rest ih =>
    by_cases hr : r.isNamed name
    · have hsame : (f r).isNamed name := by rwa [Register.isNamed, hf]
      simp [updateWhere, hr, hsame]
    · simp [updateWhere, hr, ih]

/-- Only what a change does to the register that it finds matters. -/
theorem update_congr (h : ∀ r, rs.find? name = some r → f r = g r) : rs.update name f = rs.update name g := by
  unfold update
  unfold find? at h
  induction rs with
  | nil => rfl
  | cons r rest ih =>
    by_cases hr : r.isNamed name
    · simp [updateWhere, hr, h r (List.find?_cons_of_pos hr)]
    · have hrest : ∀ r, List.find? (·.isNamed name) rest = some r → f r = g r :=
        fun r' hr' => h r' ((List.find?_cons_of_neg (p := fun r : Register => r.isNamed name) hr).trans hr')
      simp [updateWhere, hr, ih hrest]

theorem update_id : rs.update name id = rs := by
  unfold update
  induction rs with
  | nil => rfl
  | cons r rest ih => simp [updateWhere, ih]

end RegisterFile

/-! ## Pushes and pulls -/

namespace Stack

/-- A push or a pull. -/
inductive Action
  | push (b : UInt8)
  | pushWord (value : UInt64) (size : Nat)
  | pull
  | pullWord (size : Nat)

/-- The value that is pulled, if any, and the processor after a push or a pull. -/
def act (s : Stack) (c : Cpu) : Action → Except CpuError (List UInt64 × Cpu)
  | .push b => (s.push c b).map fun c => ([], c)
  | .pushWord value size => (s.pushWord c value size).map fun c => ([], c)
  | .pull => (s.pull c).map fun (b, c) => ([b.toUInt64], c)
  | .pullWord size => (s.pullWord c size).map fun (value, c) => ([value], c)

/-- The values that are pulled, in this order, and the processor after pushes and pulls. -/
def actAll (s : Stack) (c : Cpu) : List Action → Except CpuError (List UInt64 × Cpu)
  | [] => .ok ([], c)
  | a :: rest => do
    let (pulled, c) ← s.act c a
    let (more, c) ← s.actAll c rest
    return (pulled ++ more, c)

/-- To push one byte as a list of bytes is to push it. -/
theorem pushBytes_singleton (s : Stack) (c : Cpu) (b : UInt8) : s.pushBytes c [b] = s.push c b := by
  simp only [pushBytes]
  exact bind_pure _

/-- Who pulls one byte as a list of bytes pulls it. -/
theorem pull_of_pullBytes {s : Stack} {c d : Cpu} {bytes : List UInt8} (h : s.pullBytes c 1 = .ok (bytes, d)) :
    ∃ b, bytes = [b] ∧ s.pull c = .ok (b, d) := by
  cases hpull : s.pull c with
  | error e =>
    rw [pullBytes, hpull] at h
    cases h
  | ok p =>
    rw [pullBytes, hpull] at h
    obtain ⟨rfl, rfl⟩ := Prod.mk.inj (Except.ok.inj h)
    exact ⟨p.1, rfl, rfl⟩

/-- A value that was pushed. -/
structure Item where
  /-- The number of its bytes. -/
  size : Nat
  /-- The value, of which only the low bytes are on the stack. -/
  value : UInt64
  /-- There is a byte. -/
  size_pos : 0 < size
  /-- The bytes are those of a word. -/
  size_le : size ≤ 8

namespace Item

/-- A byte. -/
def ofByte (b : UInt8) : Item := ⟨1, b.toUInt64, by decide, by decide⟩

/-- What is pulled. -/
def content (i : Item) : Nat := i.value.toNat % 2 ^ (8 * i.size)

/-- The bytes, that on top of the stack first. -/
def bytes (i : Item) : List UInt8 := Word.littleBytes i.size i.value

@[simp] theorem length_bytes (i : Item) : i.bytes.length = i.size := Word.length_littleBytes _ _

theorem bytes_ofByte (b : UInt8) : (ofByte b).bytes = [b] := by simp [ofByte, bytes, Word.littleBytes]

/-- The bytes stand for the value without its high bytes. -/
theorem toNat_ofLittleBytes_bytes (i : Item) : (Word.ofLittleBytes i.bytes).toNat = i.content :=
  Word.toNat_ofLittleBytes_littleBytes i.size i.size_le i.value

end Item

/-- The number of bytes of values on a stack. -/
def outstanding (held : List Item) : Nat := (held.map Item.size).sum

/-- The bytes of values on a stack, that on top first. -/
def bytesOf (held : List Item) : List UInt8 := held.flatMap Item.bytes

theorem length_bytesOf (held : List Item) : (bytesOf held).length = outstanding held := by
  simp [bytesOf, outstanding, List.length_flatMap]

/-- Puts a value onto a list of values that is not longer than a page. -/
def pushItem (held : List Item) (i : Item) : Option (List Nat × List Item) :=
  if outstanding held + i.size ≤ 256 then some ([], i :: held) else none

/-- Takes the last value from a list of values, if it is one of `size` bytes. -/
def pullItem (size : Nat) : List Item → Option (List Nat × List Item)
  | [] => none
  | i :: rest => if i.size = size then some ([i.content], rest) else none

/-- The value that is pulled, if any, and the values after a push or a pull; `none` if too much would be on the
stack, or if something else is pulled than was pushed. -/
def Action.onItems (held : List Item) : Action → Option (List Nat × List Item)
  | push b => pushItem held (.ofByte b)
  | pushWord value size =>
    if h : 0 < size ∧ size ≤ 8 then pushItem held ⟨size, value, h.1, h.2⟩ else none
  | pull => pullItem 1 held
  | pullWord size => pullItem size held

/-- The values that are pulled, in this order, and the values after pushes and pulls. -/
def itemsAfter (held : List Item) : List Action → Option (List Nat × List Item)
  | [] => some ([], held)
  | a :: rest => do
    let (pulled, held) ← a.onItems held
    let (more, held) ← itemsAfter held rest
    return (pulled ++ more, held)

end Stack

namespace Mos6502

open Stack (Item Action bytesOf outstanding)

/-! ## Bytes on the stack -/

/-- A processor with a stack pointer of one byte and a memory that has the page of the stack. -/
structure HasStackPage (c : Cpu) : Prop where
  /-- The stack pointer is a byte. -/
  pointer : ∃ r, c.registers.find? Reg.sp = some r ∧ r.definition.width = 8 ∧ r.value ≤ 0xFF
  /-- The page belongs to the memory. -/
  page : 9 ≤ c.memory.width

/-- Bytes, that on top of the stack first, are in memory where a stack pointer points and below, in the order of
pushing. -/
def Stacked (m : Memory) (sp : UInt64) (bytes : List UInt8) : Prop :=
  ∀ (k : Nat) (b : UInt8), bytes.reverse[k]? = some b → m.read (stackSlot sp k.toUInt64) = b

namespace Stacked

variable {m : Memory} {sp : UInt64} {b : UInt8} {bytes : List UInt8}

theorem nil : Stacked m sp [] := by simp [Stacked]

/-- A byte that is pushed comes on top, and overwrites none of the others unless they fill the page. -/
theorem push (hpage : 9 ≤ m.width) (h : Stacked m sp bytes) (hlen : bytes.length < 256) (b : UInt8) :
    Stacked (m.write (stackSlot sp bytes.length.toUInt64) b) sp (b :: bytes) := by
  intro k b' hk
  have hbyte : ∀ {j : Nat}, j < 256 → j.toUInt64.toNat = j ∧ j.toUInt64 ≤ 0xFF := by
    intro j hj
    have hnat := Word.toNat_toUInt64 (n := j) (by omega)
    exact ⟨hnat, UInt64.le_iff_toNat_le.2 (hnat.symm ▸ Nat.le_of_lt_succ hj)⟩
  have hplace : k ≤ bytes.length := by
    have hlt := (List.getElem?_eq_some_iff.1 hk).1
    rw [List.length_reverse, List.length_cons] at hlt
    exact Nat.le_of_lt_succ hlt
  rw [read_write_stackSlot hpage sp (hbyte hlen).2 (hbyte (Nat.lt_of_le_of_lt hplace hlen)).2]
  rw [List.reverse_cons] at hk
  rcases Nat.lt_or_eq_of_le hplace with hlt | rfl
  · -- The byte was pushed before, so that it has another address.
    rw [List.getElem?_append_left (by rwa [List.length_reverse])] at hk
    rw [if_neg, h k b' hk]
    intro heq
    have hnat := congrArg UInt64.toNat heq
    rw [(hbyte hlen).1, (hbyte (hlt.trans hlen)).1] at hnat
    omega
  · rw [if_pos rfl]
    simpa using hk

/-- The byte on top is where the next one would go if it were not there. -/
theorem read_top (h : Stacked m sp (b :: bytes)) : m.read (stackSlot sp bytes.length.toUInt64) = b :=
  h bytes.length b (by simp)

theorem pull (h : Stacked m sp (b :: bytes)) : Stacked m sp bytes := by
  intro k b' hk
  refine h k b' ?_
  rw [List.reverse_cons, List.getElem?_append_left (List.getElem?_eq_some_iff.1 hk).1, hk]

end Stacked

/-- A write to the stack changes no byte outside its page. -/
theorem read_write_of_outside {m : Memory} (hpage : 9 ≤ m.width) (sp k : UInt64) (b : UInt8) {addr : UInt64}
    (haddr : addr &&& m.mask < 0x0100 ∨ 0x01FF < addr &&& m.mask) :
    (m.write (stackSlot sp k) b).read addr = m.read addr := by
  have hother : stackSlot sp k ≠ addr &&& m.mask := by
    intro hslot
    have hfirst := le_stackSlot sp k
    have hlast := stackSlot_le sp k
    rw [hslot] at hfirst hlast
    exact haddr.elim (UInt64.not_lt.2 hfirst) (UInt64.not_lt.2 hlast)
  rw [Memory.read_write, stackSlot_and_mask hpage, if_neg hother]

/-- A state `c'` that differs from a state `c` only by bytes on the stack, that on top first. -/
structure Holds (c c' : Cpu) (bytes : List UInt8) : Prop where
  /-- The bytes fit into the page. -/
  length_le : bytes.length ≤ 256
  /-- Only the stack pointer and the memory differ. -/
  state : c' = { c.set Reg.sp (c.get Reg.sp - bytes.length.toUInt64) with memory := c'.memory }
  /-- The memory has the same width. -/
  width : c'.memory.width = c.memory.width
  /-- No mark differs. -/
  marks : c'.memory.marks = c.memory.marks
  /-- No byte outside the page differs. -/
  outside : ∀ addr, addr &&& c.memory.mask < 0x0100 ∨ 0x01FF < addr &&& c.memory.mask →
    c'.memory.read addr = c.memory.read addr
  /-- The bytes are in the page. -/
  stacked : Stacked c'.memory (c.get Reg.sp) bytes

section

variable {c c' : Cpu} {bytes : List UInt8}

/-- The stack pointer can be set to anything that is the same up to its width. -/
theorem HasStackPage.set_congr (hc : HasStackPage c) {v w : UInt64} (h : v &&& 0xFF = w &&& 0xFF) :
    c.set Reg.sp v = c.set Reg.sp w := by
  obtain ⟨r, hr, hwidth, -⟩ := hc.pointer
  rw [Cpu.set, Cpu.set]
  congr 1
  refine RegisterFile.update_congr fun r' hr' => ?_
  obtain rfl : r = r' := Option.some.inj (hr.symm.trans hr')
  rw [Register.set, Register.set, Register.mask, hwidth, Word.mask_eight, h]

/-- Nothing is on the stack yet. -/
theorem HasStackPage.holds (hc : HasStackPage c) : Holds c c [] := by
  -- Setting the pointer to what it is changes nothing, since it is a byte already.
  have hsame : c.set Reg.sp (c.get Reg.sp - 0) = c := by
    obtain ⟨r, hr, hwidth, hle⟩ := hc.pointer
    have hget : c.get Reg.sp = r.value := by rw [Cpu.get, RegisterFile.get, hr]; rfl
    have hfile : c.registers.update Reg.sp (·.set (c.get Reg.sp - 0)) = c.registers := by
      refine (RegisterFile.update_congr fun r' hr' => ?_).trans RegisterFile.update_id
      obtain rfl : r = r' := Option.some.inj (hr.symm.trans hr')
      rw [Register.set, Register.mask, hwidth, Word.mask_eight, hget, UInt64.sub_zero, Word.and_byte_of_le hle]
      rfl
    rw [Cpu.set, hfile]
  refine ⟨by simp, ?_, rfl, rfl, fun _ _ => rfl, .nil⟩
  show c = { c.set Reg.sp (c.get Reg.sp - 0) with memory := c.memory }
  rw [hsame]

namespace Holds

/-- The stack pointer is below the bytes. -/
theorem register_sp (hc : HasStackPage c) (h : Holds c c' bytes) : ∃ r, c'.register stack.pointer = .ok r ∧
    r.mask = 0xFF ∧ r.value = (c.get Reg.sp - bytes.length.toUInt64) &&& 0xFF := by
  obtain ⟨r, hr, hwidth, -⟩ := hc.pointer
  have hmask : r.mask = 0xFF := by rw [Register.mask, hwidth, Word.mask_eight]
  refine ⟨r.set (c.get Reg.sp - bytes.length.toUInt64), ?_, hmask, by rw [Register.set, hmask]⟩
  have hfound : c'.registers.find? Reg.sp = some (r.set (c.get Reg.sp - bytes.length.toUInt64)) := by
    rw [h.state]
    refine (RegisterFile.find?_update Reg.sp (f := (·.set _)) (fun _ => rfl) c.registers).trans ?_
    rw [hr]
    rfl
  rw [Cpu.register, stack, hfound]

/-- The stack pointer is set anew. -/
theorem set_sp (hc : HasStackPage c) (h : Holds c c' bytes) (m : Memory) {v w : UInt64}
    (hv : v &&& 0xFF = w &&& 0xFF) :
    Cpu.set { c' with memory := m } Reg.sp v = { c.set Reg.sp w with memory := m } := by
  rw [h.state, ← hc.set_congr hv]
  simp only [Cpu.set]
  rw [RegisterFile.update_update (f := (·.set _)) fun _ => rfl]
  rfl

theorem push (hc : HasStackPage c) (h : Holds c c' bytes) (hlen : bytes.length < 256) (b : UInt8) :
    ∃ d, stack.push c' b = .ok d ∧ Holds c d (b :: bytes) := by
  obtain ⟨r, hr, -, hvalue⟩ := h.register_sp hc
  have hpage : 9 ≤ c'.memory.width := h.width ▸ hc.page
  have haddr : stackBase + r.value = stackSlot (c.get Reg.sp) bytes.length.toUInt64 := by rw [hvalue, stackSlot]
  have hnext : (r.value - 1) &&& 0xFF = (c.get Reg.sp - (bytes.length + 1).toUInt64) &&& 0xFF := by
    have hsub : c.get Reg.sp - bytes.length.toUInt64 - 1 = c.get Reg.sp - (bytes.length + 1).toUInt64 := by
      rw [show (bytes.length + 1).toUInt64 = bytes.length.toUInt64 + 1 from UInt64.ofNat_add _ _]
      clear * -
      grind
    rw [hvalue, Word.and_byte_sub, hsub]
  refine ⟨_, by rw [Stack.push, hr]; rfl, ?_⟩
  rw [show stack.pointer = Reg.sp from rfl, show stack.base = stackBase from rfl, haddr, h.set_sp hc _ hnext]
  refine ⟨hlen, rfl, h.width, h.marks, fun addr houtside => ?_, h.stacked.push hpage hlen b⟩
  have hmask : c'.memory.mask = c.memory.mask := congrArg Word.mask h.width
  exact (read_write_of_outside hpage _ _ b (by rwa [hmask])).trans (h.outside addr houtside)

theorem pull (hc : HasStackPage c) {b : UInt8} (h : Holds c c' (b :: bytes)) :
    ∃ d, stack.pull c' = .ok (b, d) ∧ Holds c d bytes := by
  obtain ⟨r, hr, hmask, hvalue⟩ := h.register_sp hc
  have hnext : (r.value + 1) &&& 0xFF = (c.get Reg.sp - bytes.length.toUInt64) &&& 0xFF := by
    have hadd : c.get Reg.sp - (bytes.length + 1).toUInt64 + 1 = c.get Reg.sp - bytes.length.toUInt64 := by
      rw [show (bytes.length + 1).toUInt64 = bytes.length.toUInt64 + 1 from UInt64.ofNat_add _ _]
      clear * -
      grind
    rw [hvalue, Word.and_byte_add, List.length_cons, hadd]
  have hset : (r.set (r.value + 1)).value = (c.get Reg.sp - bytes.length.toUInt64) &&& 0xFF := by
    rw [Register.set, hmask, hnext]
  have hread : c'.memory.read (stackBase + (r.set (r.value + 1)).value) = b := by
    rw [hset]
    exact h.stacked.read_top
  refine ⟨_, by rw [Stack.pull, hr]; exact congrArg Except.ok (congrArg (·, _) hread), ?_⟩
  have hsame : ((r.set (r.value + 1)).value) &&& 0xFF = (c.get Reg.sp - bytes.length.toUInt64) &&& 0xFF := by
    rw [hset, UInt64.and_assoc, UInt64.and_self]
  rw [show stack.pointer = Reg.sp from rfl, h.set_sp hc c'.memory hsame]
  have hlen := h.length_le
  rw [List.length_cons] at hlen
  exact ⟨by omega, rfl, h.width, h.marks, h.outside, h.stacked.pull⟩

/-! ## Words on the stack -/

theorem pushBytes (hc : HasStackPage c) (h : Holds c c' bytes) (new : List UInt8)
    (hlen : bytes.length + new.length ≤ 256) :
    ∃ d, stack.pushBytes c' new = .ok d ∧ Holds c d (new.reverse ++ bytes) := by
  induction new generalizing c' bytes with
  | nil => exact ⟨c', rfl, h⟩
  | cons b rest ih =>
    rw [List.length_cons] at hlen
    obtain ⟨d, hpush, hd⟩ := h.push hc (by omega) b
    obtain ⟨e, hrest, he⟩ := ih hd (by rw [List.length_cons]; omega)
    refine ⟨e, by rw [Stack.pushBytes, hpush]; exact hrest, ?_⟩
    rwa [List.reverse_cons, List.append_assoc]

theorem pullBytes (hc : HasStackPage c) (top : List UInt8) (h : Holds c c' (top ++ bytes)) :
    ∃ d, stack.pullBytes c' top.length = .ok (top, d) ∧ Holds c d bytes := by
  induction top generalizing c' with
  | nil => exact ⟨c', rfl, h⟩
  | cons b rest ih =>
    obtain ⟨d, hpull, hd⟩ := h.pull hc
    obtain ⟨e, hrest, he⟩ := ih hd
    refine ⟨e, ?_, he⟩
    rw [List.length_cons, Stack.pullBytes, hpull]
    simp [bind, Except.bind, hrest, pure, Except.pure]

variable {held held' : List Item} {pulled : List Nat}

theorem pushItem (hc : HasStackPage c) (h : Holds c c' (bytesOf held)) {i : Item}
    (hitem : Stack.pushItem held i = some (pulled, held')) :
    pulled = [] ∧ ∃ d, stack.pushBytes c' i.bytes.reverse = .ok d ∧ Holds c d (bytesOf held') := by
  rw [Stack.pushItem] at hitem
  split_ifs at hitem with hlen
  obtain ⟨rfl, rfl⟩ := Prod.mk.inj (Option.some.inj hitem)
  obtain ⟨d, hpush, hd⟩ := h.pushBytes hc i.bytes.reverse
    (by rwa [Stack.length_bytesOf, List.length_reverse, Item.length_bytes])
  rw [List.reverse_reverse] at hd
  exact ⟨rfl, d, hpush, hd⟩

theorem pullItem (hc : HasStackPage c) (h : Holds c c' (bytesOf held)) {size : Nat}
    (hitem : Stack.pullItem size held = some (pulled, held')) :
    ∃ (i : Item) (d : Cpu), i.size = size ∧ pulled = [i.content] ∧
      stack.pullBytes c' size = .ok (i.bytes, d) ∧ Holds c d (bytesOf held') := by
  cases held with
  | nil => cases hitem
  | cons i rest =>
    rw [Stack.pullItem] at hitem
    split_ifs at hitem with hsize
    obtain ⟨rfl, rfl⟩ := Prod.mk.inj (Option.some.inj hitem)
    obtain ⟨d, hpull, hd⟩ := pullBytes hc i.bytes h
    rw [Item.length_bytes, hsize] at hpull
    exact ⟨i, d, hsize, rfl, hpull, hd⟩

/-- A push or a pull does to the stack what it does to the list of values. -/
theorem act (hc : HasStackPage c) (h : Holds c c' (bytesOf held)) {a : Action}
    (ha : a.onItems held = some (pulled, held')) :
    ∃ values d, stack.act c' a = .ok (values, d) ∧ values.map UInt64.toNat = pulled ∧
      Holds c d (bytesOf held') := by
  cases a with
  | push b =>
    obtain ⟨rfl, d, hpush, hd⟩ := h.pushItem hc ha
    rw [Item.bytes_ofByte, List.reverse_singleton, Stack.pushBytes_singleton] at hpush
    exact ⟨[], d, by rw [Stack.act, hpush]; rfl, rfl, hd⟩
  | pushWord value size =>
    rw [Action.onItems] at ha
    split_ifs at ha with hsize
    obtain ⟨rfl, d, hpush, hd⟩ := h.pushItem hc ha
    exact ⟨[], d, by rw [Stack.act]; exact congrArg (Except.map _) hpush, rfl, hd⟩
  | pull =>
    obtain ⟨i, d, hsize, rfl, hpull, hd⟩ := h.pullItem hc ha
    obtain ⟨b, hb, hpull⟩ := Stack.pull_of_pullBytes hpull
    refine ⟨[b.toUInt64], d, by rw [Stack.act, hpull]; rfl, ?_, hd⟩
    rw [← i.toNat_ofLittleBytes_bytes, hb, List.map_singleton, Word.ofLittleBytes, Word.ofLittleBytes]
    simp
  | pullWord size =>
    obtain ⟨i, d, hsize, rfl, hpull, hd⟩ := h.pullItem hc ha
    refine ⟨[Word.ofLittleBytes i.bytes], d, ?_, by simp [i.toNat_ofLittleBytes_bytes], hd⟩
    rw [Stack.act, Stack.pullWord, hpull]
    rfl

/-- Pushes and pulls do to the stack what they do to the list of values. -/
theorem actAll (hc : HasStackPage c) (h : Holds c c' (bytesOf held)) {actions : List Action}
    (hactions : Stack.itemsAfter held actions = some (pulled, held')) :
    ∃ values d, stack.actAll c' actions = .ok (values, d) ∧ values.map UInt64.toNat = pulled ∧
      Holds c d (bytesOf held') := by
  -- The state that the bytes are compared with stays the first one.
  induction actions generalizing c' held pulled with
  | nil =>
    obtain ⟨rfl, rfl⟩ := Prod.mk.inj (Option.some.inj hactions)
    exact ⟨[], c', rfl, rfl, h⟩
  | cons a rest ih =>
    obtain ⟨⟨first, between⟩, ha, hrest⟩ := Option.bind_eq_some_iff.1 hactions
    obtain ⟨⟨more, last⟩, hmore, hlast⟩ := Option.bind_eq_some_iff.1 hrest
    obtain ⟨rfl, rfl⟩ := Prod.mk.inj (Option.some.inj hlast)
    obtain ⟨values, d, hact, rfl, hd⟩ := h.act hc ha
    obtain ⟨others, e, hall, rfl, he⟩ := ih hd hmore
    refine ⟨values ++ others, e, ?_, List.map_append, he⟩
    rw [Stack.actAll, hact]
    simp [bind, Except.bind, hall, pure, Except.pure]

end Holds

end

end Mos6502

end EightBit
