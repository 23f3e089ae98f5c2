import Memtest.Tests.BlockMove
import Memtest.Tests.BusStress
import Memtest.Tests.Rowhammer
import Memtest.Tests.Waits

/-!
# Running a test in a window (`run_test` in `tests/tests.c`)

Every CPU that takes part calls `run_test`, and all of them wait at `run_barrier` before they begin
and before each call of a test function that needs it. `vm_map` is given as it is behind the first
of these waits, when the master has moved the start of its first segment.

`bail` is not set when a test begins, and the test functions return as soon as they find it set, so
the `BAILOUT` behind a call has nothing to add.
-/

namespace Memtest

open Hoare

variable {arch : Arch} {α : Type}

/-- `MODULO_N`. -/
def moduloN : ℕ := 20

/-- What `run_test` is called with, and what it reads. The time stamp counter is read any number of
times, `tsc i` being the `i`-th reading. -/
structure RunConfig (arch : Arch) where
  test : ℕ
  stage : ℕ
  iterations : ℕ
  passNum : ℕ
  lastStage : ℤ
  simdTier : Bool
  rdtsc : Bool
  tsc : ℕ → ℕ
  hammer : HammerTiming arch

/-- The clock at the `i`-th reading. -/
def RunConfig.clock (cfg : RunConfig arch) (i : ℕ) : Clock := ⟨cfg.rdtsc, cfg.tsc i, cfg.passNum⟩

/-- The state of a test, and the number of waits in `run_test` itself. -/
structure RunState (arch : Arch) where
  test : TestState arch
  barriers : ℕ

/-- A part of `run_test`. -/
abbrev RunM (arch : Arch) (α : Type) := Prog Exit (RunState arch) α

/-- A call of a test function. -/
def callTest (m : TestM arch α) : RunM arch α :=
  m.onPart RunState.test fun t s => { s with test := t }

/-- `BARRIER`. -/
def barrier (env : TestEnv arch) : RunM arch Unit :=
  if 0 ≤ env.myCpu then modify fun s => { s with barriers := s.barriers + 1 } else pure ()

/-- `BARRIER`, and a call of a test function. -/
def barrierTest (env : TestEnv arch) (m : TestM arch α) : RunM arch α := do
  barrier env
  callTest m

/-- A fixed pattern and its complement, in both orders. -/
def runMovInvFixed (env : TestEnv arch) (iterations : ℕ) (pattern1 : Testword arch) :
    RunM arch Unit := do
  barrierTest env (testMovInvFixed env iterations pattern1 (~~~pattern1))
  barrierTest env (testMovInvFixed env iterations (~~~pattern1) pattern1)

/-- The first pattern of the 8 bit walking ones and zeros. -/
def walk8Pattern : (arch : Arch) → Testword arch
  | .b64 => 0x8080808080808080#64
  | .b32 => 0x80808080#32

/-- The loop body over the offsets of the modulo test. The local variable is `prsg_state`. -/
def runModuloN (env : TestEnv arch) (prsgState : Testword arch) (offset : ℕ) :
    RunM arch (Testword arch) := do
  let pattern1 := prsg prsgState
  let pattern2 := ~~~pattern1
  barrierTest env (testModuloN env 2 pattern1 pattern2 moduloN (by decide) offset)
  barrierTest env (testModuloN env 2 pattern2 pattern1 moduloN (by decide) offset)
  pure pattern1

/-- The loop body over the offsets of the shifting pattern. -/
def runMovInvWalk1 (env : TestEnv arch) (iterations offset : ℕ) : RunM arch Unit := do
  barrierTest env (testMovInvWalk1 env iterations offset false)
  barrierTest env (testMovInvWalk1 env iterations offset true)

/-- The offsets of the shifting pattern: every other one in the first pass. -/
def walk1Offsets (arch : Arch) (passNum : ℕ) : List ℕ :=
  let offsetStep := if passNum = 0 then 2 else 1
  (List.range (arch.bits / offsetStep)).map fun i => i * offsetStep

/-- `iterations` of the tests for which the first pass may leave none. -/
def atLeastOne (iterations : ℕ) : ℕ := if iterations < 1 then 1 else iterations

/-- The `switch` of `run_test`. It decides how often a test is called and with which patterns;
tests 3 and 9 have at least one iteration, where a third of their number would leave none. Test 6
has eight patterns, test 7 one number for each of its offsets, and test 9 the offsets that the
pass selects. -/
def runCase (env : TestEnv arch) (cfg : RunConfig arch) : RunM arch Unit :=
  match cfg.test with
  | 0 => callTest (testAddrWalk1 env)
  | 1 => callTest (testOwnAddr1 env)
  | 2 => callTest (testOwnAddr2 env cfg.stage)
  | 3 => (List.range (atLeastOne cfg.iterations)).foldlM (fun _ i =>
      barrierTest env (testBusStress env cfg.simdTier cfg.passNum i)) ()
  | 4 => runMovInvFixed env cfg.iterations 0
  | 5 => (List.range cfg.iterations).foldlM (fun _ i =>
      barrierTest env (testMovInvRng env cfg.simdTier (cfg.clock i) (i &&& 3 == 3))) ()
  | 6 => do
      let _ ← (List.range 8).foldlM (fun pattern1 _ => do
        runMovInvFixed env cfg.iterations pattern1
        pure (pattern1 >>> 1)) (walk8Pattern arch)
      pure ()
  | 7 => do
      let prsgState := (cfg.clock 0).seed arch * BitVec.ofNat arch.bits 0x87654321
      let _ ← (List.range cfg.iterations).foldlM (fun prsgState _ =>
        (List.range moduloN).foldlM (runModuloN env) prsgState) prsgState
      pure ()
  | 8 => callTest (testBlockMove env cfg.iterations)
  | 9 => (walk1Offsets arch cfg.passNum).foldlM (fun _ offset =>
      runMovInvWalk1 env (atLeastOne cfg.iterations) offset) ()
  | 10 => callTest (testBitFade env cfg.passNum cfg.lastStage cfg.stage cfg.iterations)
  | 11 => callTest (testRowhammer env cfg.hammer cfg.passNum)
  | _ => pure ()

/-- `MAX_CPUS`. -/
def maxCpus : ℕ := 512

/-- `stack_canary_arm`. -/
def stackCanaryArm (env : TestEnv arch) : TestM arch Unit :=
  if env.myCpu < 0 ∨ maxCpus ≤ env.myCpu then pure () else useCpuSlot env.myCpu

/-- `run_test`. -/
def Tests.runTest (env : TestEnv arch) (cfg : RunConfig arch) : RunM arch Unit := do
  callTest (stackCanaryArm env)
  barrier env
  runCase env cfg

/-- The waits of a CPU on `run_barrier` when it has left `run_test`. -/
def RunState.waits (s : RunState arch) : ℕ := s.barriers + s.test.waits

end Memtest
