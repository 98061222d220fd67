import Mathlib
import EightBit.Emulator
import EightBit.Mos6502.Architecture
import EightBit.Mos6502.Execution

/-!
# Breakpoints

Breakpoints are set and cleared one at a time. An address at which a breakpoint is set is cut to the address
space first; an address at which one is cleared is not. So what is set through an address outside the address
space can only be cleared through the address inside it that it was cut to. Where addresses outside are not
used for clearing, the last call that names an address up to the address space decides.

* `BreakpointCall`: the calls, with what they name and what they affect.
* `Emulator.mem_breakpoints_call`, `Emulator.mem_breakpoints_callAll`: one call, and a sequence of calls.
* `Emulator.breakpoints_callAll`: the breakpoints after a sequence of calls.
-/

namespace EightBit

/-- A call that changes the breakpoints of an emulator. -/
inductive BreakpointCall
  | set (addr : UInt64)
  | clear (addr : UInt64)
deriving DecidableEq, Repr

namespace BreakpointCall

/-- The address that a call is given. -/
def addr : BreakpointCall → UInt64
  | set addr | clear addr => addr

/-- Whether a call sets a breakpoint. -/
def isSet : BreakpointCall → Bool
  | set _ => true
  | clear _ => false

/-- Whether a call is given an address that a mask cuts to `m`. -/
def names (mask m : UInt64) (c : BreakpointCall) : Bool := c.addr &&& mask == m

/-- Whether a call decides about the breakpoint at `m`: only addresses at which one is set are cut. -/
def affects (mask m : UInt64) : BreakpointCall → Bool
  | set addr => addr &&& mask == m
  | clear addr => addr == m

/-- The last of some calls with a property. -/
def last? (p : BreakpointCall → Bool) (calls : List BreakpointCall) : Option BreakpointCall :=
  calls.reverse.find? p

theorem last?_concat (p : BreakpointCall → Bool) (calls : List BreakpointCall) (c : BreakpointCall) :
    last? p (calls ++ [c]) = if p c then some c else last? p calls := by
  rw [last?, List.reverse_concat, List.find?_cons]
  cases p c <;> rfl

theorem last?_congr {p q : BreakpointCall → Bool} {calls : List BreakpointCall}
    (h : ∀ c ∈ calls, p c = q c) : last? p calls = last? q calls :=
  List.find?_congr fun c hc => h c (List.mem_reverse.1 hc)

/-- A call that does not clear outside the mask affects what it names. -/
theorem affects_eq_names {mask m : UInt64} {c : BreakpointCall} (h : ∀ a, c = clear a → a &&& mask = a) :
    c.affects mask m = c.names mask m := by
  cases c with
  | set a => rfl
  | clear a => rw [affects, names, addr, h a rfl]

end BreakpointCall

namespace Emulator

/-- The emulator after a call. -/
def call (emu : Emulator) : BreakpointCall → Emulator
  | .set addr => emu.setBreakpoint addr
  | .clear addr => emu.clearBreakpoint addr

/-- The emulator after a sequence of calls. -/
def callAll (emu : Emulator) (calls : List BreakpointCall) : Emulator := calls.foldl call emu

variable (emu : Emulator)

@[simp] theorem cpu_call (c : BreakpointCall) : (emu.call c).cpu = emu.cpu := by
  cases c <;> rfl

theorem callAll_concat (calls : List BreakpointCall) (c : BreakpointCall) :
    emu.callAll (calls ++ [c]) = (emu.callAll calls).call c := by
  rw [callAll, List.foldl_append]
  rfl

@[simp] theorem cpu_callAll (calls : List BreakpointCall) : (emu.callAll calls).cpu = emu.cpu := by
  induction calls using List.reverseRecOn with
  | nil => rfl
  | append_singleton calls c ih => rw [callAll_concat, cpu_call, ih]

/-- A call decides about the breakpoints that it affects and leaves the others. -/
theorem mem_breakpoints_call (c : BreakpointCall) (m : UInt64) :
    m ∈ (emu.call c).breakpoints ↔
      if c.affects emu.cpu.arch.addressMask m then c.isSet = true else m ∈ emu.breakpoints := by
  cases c with
  | set addr =>
    simp only [call, setBreakpoint, Std.TreeSet.mem_insert, Std.compare_eq_iff_eq, BreakpointCall.affects,
      BreakpointCall.isSet, beq_iff_eq]
    split_ifs with haddr <;> simp [haddr]
  | clear addr =>
    simp only [call, clearBreakpoint, Std.TreeSet.mem_erase, Std.compare_eq_iff_eq, ne_eq,
      BreakpointCall.affects, BreakpointCall.isSet, beq_iff_eq]
    split_ifs with haddr <;> simp [haddr]

/-- After a sequence of calls the last one that affects a breakpoint decides about it. -/
theorem mem_breakpoints_callAll (calls : List BreakpointCall) (m : UInt64) :
    m ∈ (emu.callAll calls).breakpoints ↔
      (BreakpointCall.last? (·.affects emu.cpu.arch.addressMask m) calls).elim (m ∈ emu.breakpoints)
        (·.isSet = true) := by
  induction calls using List.reverseRecOn with
  | nil => rfl
  | append_singleton calls c ih =>
    rw [callAll_concat, mem_breakpoints_call, cpu_callAll, BreakpointCall.last?_concat]
    split_ifs
    · rfl
    · exact ih

/-- After any sequence of calls the breakpoints are listed in ascending order, each of them once. They are
those addresses for which the last call that affects them sets a breakpoint, and those at which there was one
before and which no call affects. If no call clears a breakpoint outside the address space, this is the last
call that names the address up to the address space. -/
theorem breakpoints_callAll (calls : List BreakpointCall) :
    (emu.callAll calls).breakpoints.toList.Pairwise (· < ·) ∧
    (∀ m, m ∈ (emu.callAll calls).breakpoints.toList ↔
      (BreakpointCall.last? (·.affects emu.cpu.arch.addressMask m) calls).elim (m ∈ emu.breakpoints)
        (·.isSet = true)) ∧
    ((∀ a, .clear a ∈ calls → a &&& emu.cpu.arch.addressMask = a) →
      ∀ m, m ∈ (emu.callAll calls).breakpoints.toList ↔
        (BreakpointCall.last? (·.names emu.cpu.arch.addressMask m) calls).elim (m ∈ emu.breakpoints)
          (·.isSet = true)) := by
  have hmem : ∀ m, m ∈ (emu.callAll calls).breakpoints.toList ↔
      (BreakpointCall.last? (·.affects emu.cpu.arch.addressMask m) calls).elim (m ∈ emu.breakpoints)
        (·.isSet = true) := fun m => by
    rw [Std.TreeSet.mem_toList, mem_breakpoints_callAll]
  refine ⟨?_, hmem, fun hclear m => ?_⟩
  · have hordered := Std.TreeSet.ordered_toList (t := (emu.callAll calls).breakpoints)
    exact hordered.imp compareOfLessAndEq_eq_lt.1
  · rw [hmem, BreakpointCall.last?_congr fun c hc =>
      BreakpointCall.affects_eq_names fun a ha => hclear a (ha ▸ hc)]

end Emulator

namespace Mos6502

/-- Calls that set and clear breakpoints through addresses inside and outside the address space. -/
def mixedCalls : List BreakpointCall :=
  [.set 0x10300, .set 0x0200, .clear 0x0300, .set 0x10200, .set 0x20300, .clear 0x0400]

theorem breakpoints_callAll_mixed :
    (∀ a, .clear a ∈ mixedCalls → a &&& architecture.addressMask = a) ∧
      ((Emulator.ofArchitecture architecture behaviour).callAll mixedCalls).breakpoints.toList =
        [0x0200, 0x0300] ∧
      (0x0300 ∈ ((Emulator.ofArchitecture architecture behaviour).callAll mixedCalls).breakpoints.toList ↔
        (BreakpointCall.last? (·.names architecture.addressMask 0x0300) mixedCalls).elim False
          (·.isSet = true)) := by
  have hclear : ∀ a, .clear a ∈ mixedCalls → a &&& architecture.addressMask = a := by
    have hinside : (0x0300 : UInt64) &&& architecture.addressMask = 0x0300 ∧
        (0x0400 : UInt64) &&& architecture.addressMask = 0x0400 := by decide
    simpa [mixedCalls] using hinside
  obtain ⟨-, -, hnames⟩ :=
    (Emulator.ofArchitecture architecture behaviour).breakpoints_callAll mixedCalls
  refine ⟨hclear, by decide +kernel, (hnames hclear 0x0300).trans ?_⟩
  have hnone : (0x0300 : UInt64) ∈ (Emulator.ofArchitecture architecture behaviour).breakpoints ↔ False := by
    decide +kernel
  rw [hnone]
  rfl

/-- A breakpoint that was set through an address outside the address space is still there after it was
cleared through the same address, although no later call names it. -/
theorem mem_breakpoints_of_clear_outside :
    ((Emulator.ofArchitecture architecture behaviour).callAll
        [.set 0x10200, .clear 0x10200]).breakpoints.toList = [0x0200] ∧
      BreakpointCall.last? (·.names architecture.addressMask 0x0200) [.set 0x10200, .clear 0x10200] =
        some (.clear 0x10200) := by
  decide +kernel

end Mos6502

end EightBit
