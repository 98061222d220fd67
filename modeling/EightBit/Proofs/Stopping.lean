import Mathlib
import EightBit.Emulator
import EightBit.Proofs.Confinement
import EightBit.Proofs.Loading

/-!
# Where a run stops

A run ticks until there is a reason to stop: a tick ends the program or fails, the limit is reached, or there
is a breakpoint at the program counter. What a run does is said here in terms of its ticks alone. The first
reason decides, and where there are several after the same tick, they count in this order. The instruction
that a run starts with is executed even at a breakpoint, so that a run can be resumed from there.

* `Emulator.ticks`: the emulator after some ticks.
* `Emulator.HasReason`: there is a reason to stop after some ticks.
* `Emulator.resume_ticks`, `Emulator.resume_add`: the part of a run before the first reason.
* `Emulator.runFreely_eq_some_iff`: a run without a limit is a long enough one with a limit.
* `Emulator.runUpTo_first_reason`: what a run yields, what it executes, and how runs are put together.
-/

namespace EightBit

namespace Emulator

/-- The emulator after some ticks, whatever they report. -/
def ticks (emu : Emulator) : Nat → Emulator
  | 0 => emu
  | n + 1 => (emu.ticks n).tick.1

/-- Whether the next tick executes an instruction: one starts at the program counter and does not fail. -/
def executes (emu : Emulator) : Bool :=
  emu.isExecutable emu.cpu.pc && (emu.cpu.step emu.behaviour).2.isNone

/-- There is a reason to stop after some ticks: the last one reports it, they are as many as a limit allows,
or there is a breakpoint. There is no reason before the first tick. -/
def HasReason (emu : Emulator) (limit : Int) : Nat → Prop
  | 0 => False
  | k + 1 => (emu.ticks k).tick.2.isSome ∨ (k + 1 : Int) = limit ∨
    (emu.ticks (k + 1)).cpu.pc ∈ emu.breakpoints

instance (emu : Emulator) (limit : Int) : DecidablePred (emu.HasReason limit)
  | 0 => inferInstanceAs (Decidable False)
  | k + 1 => inferInstanceAs (Decidable ((emu.ticks k).tick.2.isSome ∨ (k + 1 : Int) = limit ∨
    (emu.ticks (k + 1)).cpu.pc ∈ emu.breakpoints))

/-! ## Ticks -/

section Ticks

variable (emu : Emulator)

@[simp] theorem breakpoints_tell (line : Unit → Option Text) :
    (emu.tell line).breakpoints = emu.breakpoints := by
  unfold tell
  split <;> rfl

@[simp] theorem breakpoints_tick : emu.tick.1.breakpoints = emu.breakpoints := by
  unfold tick
  split_ifs
  · rfl
  · cases hstep : emu.cpu.step emu.behaviour with
    | mk cpu err => cases err <;> simp [hstep]

theorem breakpoints_ticks (n : Nat) : (emu.ticks n).breakpoints = emu.breakpoints := by
  induction n with
  | zero => rfl
  | succ n ih => rw [ticks, breakpoints_tick, ih]

theorem behaviour_reset : emu.reset.1.behaviour = emu.behaviour := by
  unfold reset
  split
  · rfl
  · dsimp only
    split <;> simp

theorem behaviour_ticks (n : Nat) : (emu.ticks n).behaviour = emu.behaviour := by
  induction n with
  | zero => rfl
  | succ n ih => rw [ticks, (tick_cases _).1, ih]

/-- Where breakpoints are does not change during a run. -/
theorem atBreakpoint_ticks (n : Nat) :
    (emu.ticks n).atBreakpoint = true ↔ (emu.ticks n).cpu.pc ∈ emu.breakpoints := by
  rw [atBreakpoint, breakpoints_ticks, Std.TreeSet.contains_iff_mem]

/-- A tick counts an instruction exactly if it executes one. -/
theorem steps_tick (hcount : emu.behaviour.KeepsCount) :
    emu.tick.1.cpu.steps = emu.cpu.steps + if emu.executes then 1 else 0 := by
  have hstep := emu.cpu.steps_step hcount
  unfold tick executes
  cases emu.isExecutable emu.cpu.pc with
  | false => rfl
  | true =>
    cases hresult : emu.cpu.step emu.behaviour with
    | mk cpu err =>
      rw [hresult] at hstep
      cases err <;> simpa [hresult] using hstep

/-- Ticks count the instructions that they execute. -/
theorem steps_ticks (hcount : emu.behaviour.KeepsCount) (n : Nat) :
    (emu.ticks n).cpu.steps = emu.cpu.steps + (List.range n).countP fun j => (emu.ticks j).executes := by
  induction n with
  | zero => rfl
  | succ n ih =>
    have hlast := (emu.ticks n).steps_tick (by rwa [behaviour_ticks])
    rw [ticks, hlast, ih, List.range_succ, List.countP_append, List.countP_singleton, Nat.add_assoc]

/-- The reasons that a tick gives to stop are not those of a run. -/
theorem tick_ne_stepLimit : emu.tick.2 ≠ some (.error .stepLimit) := by
  unfold tick
  split_ifs
  · simp
  · cases hstep : emu.cpu.step emu.behaviour with
    | mk cpu err =>
      cases err with
      | some e => simp [hstep]
      | none =>
        simp only [cpu_tell, behaviour_tell, hstep]
        split_ifs <;> simp

end Ticks

/-! ## Runs before the first reason -/

section Resume

variable {emu : Emulator} {isFirst : Bool}

/-- One more tick of a run that is not at a breakpoint, or that starts there. -/
theorem resume_succ (hfree : isFirst = true ∨ emu.atBreakpoint = false) (n : Nat) :
    emu.resume isFirst (n + 1) =
      match emu.tick.2 with
      | some stop => (emu.tick.1, some stop)
      | none => emu.tick.1.resume false n := by
  have hgo : (!isFirst && emu.atBreakpoint) = false := by
    rcases hfree with rfl | hfree
    · rfl
    · rw [hfree, Bool.and_false]
  rw [resume, hgo]
  cases emu.tick with
  | mk next stop => cases stop <;> rfl

/-- A run that has not stopped goes on where it is. Only its first instruction is executed in spite of a
breakpoint. -/
theorem resume_add {emu' : Emulator} {m : Nat} (h : emu.resume isFirst m = (emu', none)) (n : Nat) :
    emu.resume isFirst (m + n) = emu'.resume (isFirst && m == 0) n := by
  induction m generalizing emu isFirst with
  | zero =>
    obtain rfl : emu = emu' := congrArg Prod.fst h
    simp
  | succ m ih =>
    -- A breakpoint or a report of the tick would have stopped the run.
    have hfree : isFirst = true ∨ emu.atBreakpoint = false := by
      by_contra hstop
      rw [not_or, Bool.not_eq_true, Bool.not_eq_false] at hstop
      simp [resume, hstop] at h
    rw [resume_succ hfree] at h
    rw [Nat.add_right_comm, resume_succ hfree]
    cases htick : emu.tick.2 with
    | some stop => simp [htick] at h
    | none =>
      rw [htick] at h
      rw [ih h]
      simp

/-- A run ticks as long as no tick reports anything and no breakpoint is reached. -/
theorem resume_ticks {k : Nat} (hquiet : ∀ j < k, (emu.ticks j).tick.2 = none)
    (hfree : ∀ j, 0 < j → j < k → (emu.ticks j).atBreakpoint = false) :
    emu.resume true k = (emu.ticks k, none) := by
  induction k with
  | zero => rfl
  | succ k ih =>
    have hbefore : emu.resume true k = (emu.ticks k, none) :=
      ih (fun j hj => hquiet j (by omega)) fun j hpos hj => hfree j hpos (by omega)
    have hlast : (true && k == 0) = true ∨ (emu.ticks k).atBreakpoint = false := by
      rcases Nat.eq_zero_or_pos k with rfl | hpos
      · exact .inl rfl
      · exact .inr (hfree k hpos (by omega))
    rw [resume_add hbefore, resume_succ hlast, hquiet k (by omega)]
    rfl

/-- A run without a limit is one with a limit that is high enough. -/
theorem runFreely_eq_some_iff {emu' : Emulator} {stop : Stop} :
    emu.runFreely isFirst = some (emu', stop) ↔ ∃ n, emu.resume isFirst n = (emu', some stop) := by
  constructor
  · intro h
    -- What a run without a limit yields, it yields after finitely many unfoldings.
    refine runFreely.partial_correctness
      (fun isFirst emu r => ∃ n, emu.resume isFirst n = (r.1, some r.2)) ?_ isFirst emu (emu', stop) h
    intro rec ih isFirst emu r hr
    split_ifs at hr with hbreak
    · exact ⟨1, by cases hr; simp [resume, hbreak]⟩
    · split at hr
      next next report htick => exact ⟨1, by cases hr; simp [resume, hbreak, htick]⟩
      next next htick =>
        obtain ⟨n, hn⟩ := ih false next r hr
        exact ⟨n + 1, by simp [resume, hbreak, htick, hn]⟩
  · rintro ⟨n, hn⟩
    induction n generalizing emu isFirst with
    | zero => cases hn
    | succ n ih =>
      rw [resume] at hn
      rw [runFreely]
      split_ifs at hn ⊢ with hbreak
      · cases hn
        rfl
      · cases htick : emu.tick with
        | mk next report =>
          rw [htick] at hn
          cases report with
          | some reported =>
            cases hn
            rfl
          | none => exact ih hn

end Resume

/-! ## The first reason -/

section Reasons

variable {emu : Emulator} {limit : Int} {k : Nat}

/-- Before the first reason no tick reports anything. -/
theorem tick_eq_none_of_isLeast (h : IsLeast {k | emu.HasReason limit k} (k + 1)) {j : Nat} (hj : j < k) :
    (emu.ticks j).tick.2 = none := by
  by_contra hsome
  have hle : k + 1 ≤ j + 1 := h.2 (.inl (Option.isSome_iff_ne_none.2 hsome))
  omega

/-- Before the first reason no breakpoint is reached. -/
theorem pc_not_mem_of_isLeast (h : IsLeast {k | emu.HasReason limit k} (k + 1)) {j : Nat} (hpos : 0 < j)
    (hj : j ≤ k) : (emu.ticks j).cpu.pc ∉ emu.breakpoints := by
  intro hbreak
  obtain ⟨i, rfl⟩ : ∃ i, j = i + 1 := ⟨j - 1, by omega⟩
  have hle : k + 1 ≤ i + 1 := h.2 (.inr (.inr hbreak))
  omega

theorem isLeast_two (htwo : emu.HasReason limit 2) (hone : ¬ emu.HasReason limit 1) :
    IsLeast {k | emu.HasReason limit k} 2 := by
  refine ⟨htwo, fun j hj => ?_⟩
  match j, hj with
  | 0, hj => exact absurd hj id
  | 1, hj => exact absurd hj hone
  | j + 2, _ => exact Nat.le_add_left 2 j

/-- A limit is not below the first reason. -/
theorem le_limit_of_isLeast (h : IsLeast {k | emu.HasReason limit k} (k + 1)) (hpos : 0 < limit) :
    (k + 1 : Int) ≤ limit := by
  obtain ⟨n, hn⟩ : ∃ n : Nat, limit = n + 1 := ⟨limit.toNat - 1, by omega⟩
  have hle : k + 1 ≤ n + 1 := h.2 (.inr (.inl hn.symm))
  omega

/-- What a run yields that reaches its first reason to stop within `n` more ticks. -/
theorem resume_of_isLeast (h : IsLeast {k | emu.HasReason limit k} (k + 1)) (n : Nat) :
    emu.resume true (k + (n + 1)) =
      match (emu.ticks k).tick.2 with
      | some stop => (emu.ticks (k + 1), some stop)
      | none => (emu.ticks (k + 1)).resume false n := by
  have hfree : ∀ j, 0 < j → j ≤ k → (emu.ticks j).atBreakpoint = false := by
    intro j hpos hj
    rw [← Bool.not_eq_true, atBreakpoint_ticks]
    exact pc_not_mem_of_isLeast h hpos hj
  have hbefore : emu.resume true k = (emu.ticks k, none) :=
    resume_ticks (fun j hj => tick_eq_none_of_isLeast h hj) fun j hpos hj => hfree j hpos (by omega)
  -- The last tick is the first one too if there is a reason right after it.
  have hlast : (true && k == 0) = true ∨ (emu.ticks k).atBreakpoint = false := by
    rcases Nat.eq_zero_or_pos k with rfl | hpos
    · exact .inl rfl
    · exact .inr (hfree k hpos le_rfl)
  rw [resume_add hbefore, resume_succ hlast]
  rfl

/-- A run that is at a breakpoint after its first tick stops there. -/
theorem resume_of_pc_mem {j : Nat} (hbreak : (emu.ticks j).cpu.pc ∈ emu.breakpoints) (n : Nat) :
    (emu.ticks j).resume false (n + 1) = (emu.ticks j, some (.error .breakpoint)) := by
  have hat := (emu.atBreakpoint_ticks j).2 hbreak
  simp [resume, hat]

/-- A run ends at its first reason to stop. What the last tick reports counts before the limit, and the limit
before a breakpoint. -/
theorem runUpTo_of_isLeast (h : IsLeast {k | emu.HasReason limit k} (k + 1)) :
    emu.runUpTo limit = some (emu.ticks (k + 1), (emu.ticks k).tick.2.getD
      (if (k + 1 : Int) = limit then .error .stepLimit else .error .breakpoint)) := by
  cases hreport : (emu.ticks k).tick.2 with
  | some stop =>
    have hresume : ∀ n, emu.resume true (k + (n + 1)) = (emu.ticks (k + 1), some stop) := by
      intro n
      rw [resume_of_isLeast h, hreport]
    rw [Option.getD_some, runUpTo]
    split_ifs with hpos
    · have hlimit : limit.toNat = k + ((limit.toNat - k - 1) + 1) := by
        have := le_limit_of_isLeast h hpos
        omega
      rw [run, hlimit, hresume]
    · exact runFreely_eq_some_iff.2 ⟨k + 1, hresume 0⟩
  | none =>
    have hresume : ∀ n, emu.resume true (k + (n + 1)) = (emu.ticks (k + 1)).resume false n := by
      intro n
      rw [resume_of_isLeast h, hreport]
    rw [Option.getD_none]
    by_cases hlimit : (k + 1 : Int) = limit
    · -- The limit is reached, whether or not there is a breakpoint.
      have hpos : 0 < limit := by omega
      have hsame : limit.toNat = k + (0 + 1) := by omega
      rw [if_pos hlimit, runUpTo, if_pos hpos, run, hsame, hresume]
      rfl
    · have hbreak : (emu.ticks (k + 1)).cpu.pc ∈ emu.breakpoints := by
        rcases h.1 with hsome | heq | hbreak
        · rw [hreport] at hsome
          cases hsome
        · exact absurd heq hlimit
        · exact hbreak
      rw [if_neg hlimit]
      unfold runUpTo
      split_ifs with hpos
      · have hmore : limit.toNat = k + ((limit.toNat - k - 2 + 1) + 1) := by
          have := le_limit_of_isLeast h hpos
          omega
        rw [run, hmore, hresume, resume_of_pc_mem hbreak]
      · exact runFreely_eq_some_iff.2 ⟨k + (1 + 1), (hresume 1).trans (resume_of_pc_mem hbreak 0)⟩

/-- A run without a reason to stop goes on for ever. -/
theorem runUpTo_of_forall_not (h : ∀ k, ¬ emu.HasReason limit k) : emu.runUpTo limit = none := by
  have hunlimited : ¬ 0 < limit := by
    intro hpos
    exact h (limit.toNat - 1 + 1) (.inr (.inl (by omega)))
  have hquiet : ∀ j, (emu.ticks j).tick.2 = none := by
    intro j
    by_contra hsome
    exact h (j + 1) (.inl (Option.isSome_iff_ne_none.2 hsome))
  have hfree : ∀ j, 0 < j → (emu.ticks j).atBreakpoint = false := by
    intro j hpos
    obtain ⟨i, rfl⟩ : ∃ i, j = i + 1 := ⟨j - 1, by omega⟩
    rw [← Bool.not_eq_true, atBreakpoint_ticks]
    exact fun hbreak => h (i + 1) (.inr (.inr hbreak))
  -- If the unlimited run ended, it would do so within some number of ticks.
  rw [runUpTo, if_neg hunlimited, Option.eq_none_iff_forall_ne_some]
  rintro ⟨emu', stop⟩ hsome
  obtain ⟨n, hn⟩ := runFreely_eq_some_iff.1 hsome
  rw [resume_ticks (fun j _ => hquiet j) fun j hpos _ => hfree j hpos] at hn
  cases hn

/-- The limit stops a run only if nothing else does. -/
theorem resume_of_run_eq_stepLimit {m : Nat} {emu' : Emulator} (h : emu.run m = (emu', .error .stepLimit)) :
    emu.resume true m = (emu', none) := by
  have hreason : ∀ (n : Nat) (isFirst : Bool) (emu : Emulator),
      (emu.resume isFirst n).2 ≠ some (.error .stepLimit) := by
    intro n
    induction n with
    | zero => simp [resume]
    | succ n ih =>
      intro isFirst emu
      have htick := emu.tick_ne_stepLimit
      rw [resume]
      split_ifs
      · simp
      · split
        next next stop hstop => rwa [hstop] at htick
        next next _ => exact ih false next
  unfold run at h
  split at h
  next next stop hstop =>
    obtain ⟨rfl, rfl⟩ := Prod.mk.inj h
    exact absurd (congrArg Prod.snd hstop) (hreason m true emu)
  next next hgo =>
    obtain ⟨rfl, -⟩ := Prod.mk.inj h
    exact hgo

/-- A run that was stopped by its limit is continued by another run, unless there is a breakpoint. -/
theorem run_run {m n : Nat} (hm : 0 < m) {emu' : Emulator} (h : emu.run m = (emu', .error .stepLimit))
    (hfree : emu'.atBreakpoint = false) : emu'.run n = emu.run (m + n) := by
  have hsame : emu'.resume true n = emu'.resume false n := by
    cases n with
    | zero => rfl
    | succ n => rw [resume_succ (.inl rfl), resume_succ (.inr hfree)]
  have hfirst : (true && m == 0) = false := by simp; omega
  rw [run, run, resume_add (resume_of_run_eq_stepLimit h), hsame, hfirst]

end Reasons

/-- A run ends in the state after as many ticks as there are before the first reason to stop, and yields that
reason. Without a reason it does not end. Of the states in which it executes something only the first may be
at a breakpoint. Where instructions leave the count of steps alone, as those of the 6502 do, it grows by the
number of ticks that execute an instruction. A run that was stopped by its limit, and not at a breakpoint, is
continued by a second run as if there had been one limit. -/
theorem runUpTo_first_reason (emu : Emulator) (limit : Int) :
    (∀ k, IsLeast {k | emu.HasReason limit k} (k + 1) →
      emu.runUpTo limit = some (emu.ticks (k + 1), (emu.ticks k).tick.2.getD
        (if (k + 1 : Int) = limit then .error .stepLimit else .error .breakpoint)) ∧
      (∀ j, 0 < j → j ≤ k → (emu.ticks j).cpu.pc ∉ emu.breakpoints) ∧
      (emu.behaviour.KeepsCount → (emu.ticks (k + 1)).cpu.steps =
        emu.cpu.steps + (List.range (k + 1)).countP fun j => (emu.ticks j).executes)) ∧
    ((∀ k, ¬ emu.HasReason limit k) → emu.runUpTo limit = none) ∧
    (∀ m n : Int, 0 < m → 0 < n → ∀ emu', emu.runUpTo m = some (emu', .error .stepLimit) →
      emu'.cpu.pc ∉ emu'.breakpoints → emu'.runUpTo n = emu.runUpTo (m + n)) ∧
    Mos6502.behaviour.KeepsCount := by
  refine ⟨fun k hk => ⟨runUpTo_of_isLeast hk, ?_, ?_⟩, runUpTo_of_forall_not, ?_,
    Mos6502.keepsCount_behaviour⟩
  · intro j hpos hj
    exact pc_not_mem_of_isLeast hk hpos hj
  · intro hcount
    exact emu.steps_ticks hcount (k + 1)
  · intro m n hm hn emu' hrun hfree
    have hsum : (m + n).toNat = m.toNat + n.toNat := by omega
    have hoff : emu'.atBreakpoint = false := by
      rw [atBreakpoint, ← Bool.not_eq_true, Std.TreeSet.contains_iff_mem]
      exact hfree
    rw [runUpTo, if_pos hm, Option.some.injEq] at hrun
    rw [runUpTo, runUpTo, if_pos hn, if_pos (by omega), hsum, run_run (by omega) hrun hoff]

end Emulator

namespace Mos6502

/-- A loop of two instructions. -/
def loopingSource : Text := "loop: INX\n BNE loop\n"

/-- An emulator reset to the start of a program, with a breakpoint there. -/
def emulatorAtStart (program : Option Program) : Emulator :=
  ({ Emulator.ofArchitecture architecture behaviour with program }.setBreakpoint 0x0200).reset.1

theorem behaviour_emulatorAtStart (program : Option Program) :
    (emulatorAtStart program).behaviour = behaviour :=
  Emulator.behaviour_reset _

/-- The emulator at the start of the loop. -/
def loopingEmulator : Emulator :=
  let a := Assembler.ofArchitecture architecture
  emulatorAtStart
    ((a.assemble (a.parse "loop" loopingSource).tree a.freshMemory).map Assembled.program)

theorem runUpTo_first_reason_looping :
    loopingEmulator.cpu.pc ∈ loopingEmulator.breakpoints ∧
      IsLeast {k | loopingEmulator.HasReason 0 k} 2 ∧
      loopingEmulator.runUpTo 0 = some (loopingEmulator.ticks 2, .error .breakpoint) ∧
      (loopingEmulator.ticks 2).cpu.steps = 2 ∧
      ∃ emu, loopingEmulator.runUpTo 1 = some (emu, .error .stepLimit) ∧ emu.cpu.pc = 0x0201 ∧
        emu.runUpTo 1 = loopingEmulator.runUpTo 2 := by
  have hcheck : (loopingEmulator.HasReason 0 2 ∧ ¬ loopingEmulator.HasReason 0 1) ∧
      (loopingEmulator.cpu.pc ∈ loopingEmulator.breakpoints ∧ (loopingEmulator.ticks 1).tick.2 = none ∧
        loopingEmulator.cpu.steps = 0 ∧
        (List.range 2).countP (fun j => (loopingEmulator.ticks j).executes) = 2) ∧
      (loopingEmulator.run 1).2 = .error .stepLimit ∧ (loopingEmulator.run 1).1.cpu.pc = 0x0201 ∧
      (loopingEmulator.run 1).1.cpu.pc ∉ (loopingEmulator.run 1).1.breakpoints := by
    decide +kernel
  obtain ⟨⟨htwo, hnot⟩, ⟨hbreak, htick, hsteps, hcount⟩, hlimit, hpc, hfree⟩ := hcheck
  have hleast := Emulator.isLeast_two htwo hnot
  obtain ⟨hstop, -, hcompose, hkeeps⟩ := Emulator.runUpTo_first_reason loopingEmulator 0
  obtain ⟨hrun, -, hgrows⟩ := hstop 1 hleast
  have hone : ∀ emu : Emulator, emu.runUpTo 1 = some ((emu.run 1).1, (emu.run 1).2) := fun _ => rfl
  have hfirst := hone loopingEmulator
  rw [hlimit] at hfirst
  have hboth := hcompose 1 1 (by decide) (by decide) _ hfirst hfree
  rw [show (1 : Int) + 1 = 2 from rfl] at hboth
  refine ⟨hbreak, hleast, ?_, ?_, _, hfirst, hpc, hboth⟩
  · rw [hrun, htick, Option.getD_none, if_neg (by decide)]
  · have hbehaviour : loopingEmulator.behaviour = behaviour := behaviour_emulatorAtStart _
    rw [hgrows (hbehaviour ▸ hkeeps), hsteps, hcount]

end Mos6502

end EightBit
