import EightBit.Assembly.Program
import EightBit.Cpu.Step
import Std.Data.TreeSet

/-!
# Emulation

Runs an assembled program: its memory is loaded, and instructions are executed until the program counter
leaves the program, a breakpoint is reached, or something fails.

* `Emulator.reset`: the start of the program.
* `Emulator.tick`: one instruction.
* `Emulator.run`: instructions up to the first reason to stop.
* `Emulator.runUpTo`: the same where there may be no limit.
-/

namespace EightBit

/-- What can go wrong in a run. -/
inductive EmulatorError
  | noProgram
  | breakpoint
  | stepLimit
  | unassembled
  /-- The processor cannot be reset. -/
  | cpu (e : CpuError)
  /-- An instruction failed. -/
  | runtime (loc : Location) (e : CpuError)
deriving DecidableEq, Repr

/-- The text of an error. -/
def EmulatorError.message : EmulatorError → Text
  | noProgram => "no program loaded"
  | breakpoint => "breakpoint"
  | stepLimit => "step limit reached"
  | unassembled => "no code assembled from line"
  | cpu e => e.message
  | runtime loc e => loc.message ++ (": " : Text) ++ e.message

/-- Why a run stopped. -/
inductive Stop
  /-- The program counter left the program. -/
  | done
  | error (e : EmulatorError)
deriving DecidableEq, Repr

/-- A processor with the program it runs. -/
structure Emulator where
  /-- What the instructions do. -/
  behaviour : Behaviour
  /-- The processor. -/
  cpu : Cpu
  /-- The program. -/
  program : Option Program := none
  /-- Where runs stop. -/
  breakpoints : Std.TreeSet UInt64 := ∅
  /-- Whether there is a report on what is done. -/
  verbose : Bool := false
  /-- The report, the last line first. -/
  log : List Text := []

namespace Emulator

/-- An emulator without a program. -/
def ofArchitecture (arch : Architecture) (behaviour : Behaviour) : Emulator where
  behaviour := behaviour
  cpu := .ofArchitecture arch

/-- The emulator with one more line in its report, if there is one. -/
def tell (emu : Emulator) (line : Unit → Option Text) : Emulator :=
  if emu.verbose then { emu with log := (line ()).toList ++ emu.log } else emu

/-- The constants that programs may use: the memory size and those of the architecture. -/
def defines (emu : Emulator) : List (Text × Text) :=
  (("MEMORY_SIZE" : Text), Text.ofNat emu.cpu.memory.size) ::
    emu.cpu.arch.equates.map fun (name, value) => (name, Text.ofNat value.toNat)

/-- The memory with the bytes and marks of a program copied into it, and nothing else. -/
def loadProgram (m : Memory) (p : Program) : Memory :=
  p.sourceMap.keys.foldl
    (fun m addr => (m.write addr (p.memory.read addr)).setMark addr (p.memory.markAt addr)) m.clear

/-- The emulator at the start of its program, or what prevents it. -/
def reset (emu : Emulator) : Emulator × Option EmulatorError :=
  match emu.program with
  | none => (emu, some .noProgram)
  | some p =>
    let emu := emu.tell fun _ => some (Cpu.resetReport p.entry)
    let loaded := { emu.cpu with memory := loadProgram emu.cpu.memory p }
    match loaded.reset emu.behaviour p.entry with
    | (cpu, some e) => ({ emu with cpu }, some (.cpu e))
    | (cpu, none) =>
      (({ emu with cpu } : Emulator).tell fun _ => some (("emulator: reset, " : Text)
        ++ Text.ofNat p.sourceMap.size ++ (" bytes, entry $" : Text) ++ Text.hexUpper 4 p.entry.toNat),
        none)

/-- The row at an address, with the place of the address in it. -/
def rowAt? (emu : Emulator) (addr : UInt64) : Option (Row × Nat) :=
  emu.program.bind fun p => p.rows.find? addr

/-- The row at the program counter. -/
def row? (emu : Emulator) : Option (Row × Nat) := emu.rowAt? emu.cpu.pc

/-- Where the instruction at the program counter stands in its source. -/
def loc (emu : Emulator) : Location :=
  (emu.program.bind fun p => p.sourceMap.get? emu.cpu.pc).getD {}

/-- Whether an instruction of the program starts at an address. -/
def isExecutable (emu : Emulator) (addr : UInt64) : Bool :=
  (emu.rowAt? addr).any fun (r, n) => r.mode.isSome && n == 0

/-- The emulator after one instruction, and the reason to stop if there is one. Nothing is executed
outside the program. -/
def tick (emu : Emulator) : Emulator × Option Stop :=
  if !emu.isExecutable emu.cpu.pc then (emu, some .done)
  else
    let loc := emu.loc
    let emu := emu.tell fun _ => emu.cpu.stepReport? emu.behaviour
    match emu.cpu.step emu.behaviour with
    | (cpu, some e) => ({ emu with cpu }, some (.error (.runtime loc e)))
    | (cpu, none) =>
      let emu := { emu with cpu }
      (emu, if emu.isExecutable emu.cpu.pc then none else some .done)

/-- Whether there is a breakpoint at the program counter. -/
def atBreakpoint (emu : Emulator) : Bool := emu.breakpoints.contains emu.cpu.pc

/-- The emulator after up to `n` more instructions of a run, and the reason to stop if there was one.
The first instruction of a run is executed even if there is a breakpoint. -/
def resume (isFirst : Bool) : Nat → Emulator → Emulator × Option Stop
  | 0, emu => (emu, none)
  | n + 1, emu =>
    -- A run that starts at a breakpoint goes on from it.
    if !isFirst && emu.atBreakpoint then (emu, some (.error .breakpoint))
    else
      match emu.tick with
      | (emu, some stop) => (emu, some stop)
      | (emu, none) => resume false n emu

/-- The emulator after a run of at most `limit` instructions, and why it stopped. -/
def run (emu : Emulator) (limit : Nat) : Emulator × Stop :=
  match emu.resume true limit with
  | (emu, some stop) => (emu, stop)
  | (emu, none) => (emu, .error .stepLimit)

/-- The emulator after the rest of a run without a limit, and why it stopped; `none` if nothing stops it. -/
def runFreely (isFirst : Bool) (emu : Emulator) : Option (Emulator × Stop) :=
  if !isFirst && emu.atBreakpoint then some (emu, .error .breakpoint)
  else
    match emu.tick with
    | (emu, some stop) => some (emu, stop)
    | (emu, none) => emu |>.runFreely false
partial_fixpoint

/-- The emulator after a run, and why it stopped; `none` if nothing stops it. A limit counts only if it is
positive. -/
def runUpTo (emu : Emulator) (limit : Int) : Option (Emulator × Stop) :=
  if 0 < limit then some (emu.run limit.toNat) else emu.runFreely true

/-- The emulator with one more breakpoint. -/
def setBreakpoint (emu : Emulator) (addr : UInt64) : Emulator :=
  { emu with breakpoints := emu.breakpoints.insert (addr &&& emu.cpu.arch.addressMask) }

/-- The emulator without a breakpoint. -/
def clearBreakpoint (emu : Emulator) (addr : UInt64) : Emulator :=
  { emu with breakpoints := emu.breakpoints.erase addr }

/-- The emulator with a breakpoint at the first instruction of a source line, or why there is none. -/
def setLineBreakpoint (emu : Emulator) (file : Text) (line : Int) : Except EmulatorError Emulator :=
  match emu.program with
  | none => .error .noProgram
  | some p =>
    match (p.sourceMap.addresses file line).find? emu.isExecutable with
    | some addr => .ok (emu.setBreakpoint addr)
    | none => .error .unassembled

end Emulator

end EightBit
