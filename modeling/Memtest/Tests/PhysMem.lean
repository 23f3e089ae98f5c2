import Memtest.Windows.AllWindows
import Memtest.Windows.View
import Memtest.Tests.BitFade

/-!
# Tests on physical memory

A test knows the memory of one window only, by virtual addresses. Here the windows of a stage are
tested one after the other on the memory of the machine: `map_window` selects what the test sees,
and what it writes goes to the physical words behind. The log of the machine has physical words.

This is the 64-bit build, and the memory has no faults.
-/

namespace Memtest

open Hoare

/-- The memory of the machine, the page tables, the log and the number of calls of `do_tick`. -/
structure PhysState where
  mem : ℕ → Testword .b64
  vmem : VmemState
  log : List (Event .b64)
  doTicks : ℕ

/-- A part of a test run on the machine. -/
abbrev PhysM (α : Type) := Prog Exit PhysState α

/-- An event with its word renamed. -/
def Event.mapWord {arch : Arch} (f : ℕ → ℕ) : Event arch → Event arch
  | .write p value => .write (f p) value
  | .check p expect => .check (f p) expect
  | .dataError p good bad useForBadram => .dataError (f p) good bad useForBadram
  | .addrError p q good bad => .addrError (f p) (f q) good bad
  | .flush => .flush
  | .tick => .tick

/-- The memory after an event. -/
def applyEvent (mem : ℕ → Testword .b64) : Event .b64 → ℕ → Testword .b64
  | .write w value => Function.update mem w value
  | _ => mem

/-- Runs a part of a test on what the page tables show of the memory. -/
def runMapped (flags : CpuFlags) (m : TestM .b64 Unit) : PhysM Unit := fun s =>
  let r := m.exec ⟨fun p => s.mem (s.vmem.physWord flags p), [], 0, s.doTicks, []⟩
  let log := r.2.log.map (Event.mapWord (s.vmem.physWord flags))
  (r.1, ⟨log.foldl applyEvent s.mem, s.vmem, s.log ++ log, r.2.doTicks⟩)

/-- `map_window` for the first page of the first segment: whether it returns true. -/
def mapWindowM (flags : CpuFlags) (vmMap : List VmSegment) : PhysM Bool := fun s =>
  match s.vmem.mapWindow flags (firstPmBaseAddr vmMap) with
  | none => (.ok false, s)
  | some vmem => (.ok true, { s with vmem := vmem })

/-- What the loop of `test_all_windows` does with the windows it has set up. The value of the body
is passed on to the next window. -/
def forWindows {α : Type} (flags : CpuFlags) (body : α → List VmSegment → PhysM α) :
    List VmMapState → α → PhysM α
  | [], a => pure a
  | vm :: vms, a =>
      if vm.numMappedPages = 0 then forWindows flags body vms a
      else do
        let mapped ← mapWindowM flags vm.vmMap
        if mapped = true then do
          let a ← body a vm.vmMap
          forWindows flags body vms a
        else pure a

/-- The windows a stage sets up. -/
def IsWindowSequence (cfg : WindowConfig) (vms : List VmMapState) : Prop :=
  ∃ fuel loadAddr mappedWindow visits,
    testAllWindows cfg fuel (.init loadAddr mappedWindow) = some visits ∧
      visits.map Visit.vm = vms

/-- The window a test sees. -/
def TestEnv.withVmMap {arch : Arch} (env : TestEnv arch) (vmMap : List VmSegment) : TestEnv arch :=
  { env with vmMap := vmMap }

/-- A stage of `test_own_addr2`, on one CPU. -/
def ownAddr2Stage (flags : CpuFlags) (env : TestEnv .b64) (stage : ℕ) (vms : List VmMapState) :
    PhysM Unit :=
  forWindows flags (fun _ vmMap =>
    runMapped flags (testOwnAddr2 (env.withVmMap vmMap) stage)) vms ()

/-- A stage of `test_bit_fade`. The CPUs work on chunks of their own, so it does not matter in which
order they come. `last_stage` is set when all of them have read it. -/
def bitFadeStage (flags : CpuFlags) (envs : List (TestEnv .b64)) (passNum sleepSecs stage : ℕ)
    (vms : List VmMapState) (lastStage : ℤ) : PhysM ℤ :=
  forWindows flags (fun lastStage vmMap => do
    envs.foldlM (fun _ env =>
      runMapped flags (testBitFade (env.withVmMap vmMap) passNum lastStage stage sleepSecs)) ()
    pure (stage : ℤ)) vms lastStage

/-- The two stages of `test_own_addr2`, each with the windows it sets up. -/
def ownAddr2Run (flags : CpuFlags) (env : TestEnv .b64) (vms : ℕ → List VmMapState) : PhysM Unit :=
  do
    ownAddr2Stage flags env 0 (vms 0)
    ownAddr2Stage flags env 1 (vms 1)

/-- The twelve stages of `test_bit_fade`. -/
def bitFadeRun (flags : CpuFlags) (envs : List (TestEnv .b64)) (passNum sleepSecs : ℕ)
    (vms : ℕ → List VmMapState) (lastStage : ℤ) : PhysM ℤ :=
  (List.range 12).foldlM (fun lastStage stage =>
    bitFadeStage flags envs passNum sleepSecs stage (vms stage) lastStage) lastStage

end Memtest
