import Memtest.Tests.OwnAddr

/-!
# Bit fade (`tests/bit_fade.c`)

Four rounds of three stages each: fill, wait, check. The first two rounds fill the memory with
zeros and ones, the others with a hash of the address and a seed and with its complement.
-/

namespace Memtest

open Hoare

variable {arch : Arch}

/-- The steps of `fade_mix`, with the constants of a build. -/
def fadeMixSteps (shift1 factor1 shift2 factor2 shift3 : ℕ) (x : Testword arch) : Testword arch :=
  let x := x ^^^ x >>> shift1
  let x := x * BitVec.ofNat arch.bits factor1
  let x := x ^^^ x >>> shift2
  let x := x * BitVec.ofNat arch.bits factor2
  x ^^^ x >>> shift3

/-- `fade_mix`. -/
def fadeMix (x : Testword arch) : Testword arch :=
  match arch with
  | .b64 => fadeMixSteps 30 0xbf58476d1ce4e5b9 27 0x94d049bb133111eb 31 x
  | .b32 => fadeMixSteps 16 0x85ebca6b 13 0xc2b2ae35 16 x

/-- The factor `fade_seed` multiplies the number of the pass by. -/
def fadeSeedFactor : Arch → ℕ
  | .b64 => 0x9e3779b97f4a7c15
  | .b32 => 0x9e3779b9

/-- `fade_seed`. -/
def fadeSeed (arch : Arch) (passNum : ℕ) : Testword arch :=
  fadeMix (BitVec.ofNat arch.bits (1 + passNum) * BitVec.ofNat arch.bits (fadeSeedFactor arch))

/-- `fade_addr_offset`. -/
def fadeAddrOffset (arch : Arch) (vmMap : List VmSegment) : Testword arch :=
  windowOffset arch (firstPmBaseAddr vmMap)

/-- `invert`. -/
def fadeInvert (arch : Arch) (round : ℕ) : Testword arch :=
  if round % 2 = 1 then BitVec.allOnes arch.bits else 0

/-- What a round writes to a word and expects of it. -/
def fadePattern (passNum round : ℕ) (vmMap : List VmSegment) (p : ℕ) : Testword arch :=
  if round ≥ 2 then
    fadeMix (ownAddress (fadeAddrOffset arch vmMap) p ^^^ fadeSeed arch passNum) ^^^
      fadeInvert arch round
  else fadeInvert arch round

/-- `flush_caches_all`. Seen from outside it is `flush_caches`: all CPUs flush their caches between
the two waits. -/
def flushCachesAll (env : TestEnv arch) : TestM arch Unit :=
  if 0 ≤ env.myCpu then modify fun s => s.record .flush else pure ()

/-- `pattern_fill`. -/
def fadeFill (env : TestEnv arch) (passNum round : ℕ) : TestM arch Unit := do
  sweepUp env arch.wordBytes (fun p _ => writeWord p (fadePattern passNum round env.vmMap p)) ()
  flushCachesAll env

/-- `pattern_check`. -/
def fadeCheck (env : TestEnv arch) (passNum round : ℕ) : TestM arch Unit :=
  sweepUp env arch.wordBytes
    (fun p _ => checkWord env p (fadePattern passNum round env.vmMap p) true) ()

/-- `fade_delay`. -/
def fadeDelay (env : TestEnv arch) : (sleepSecs : ℕ) → TestM arch Unit
  | 0 => pure ()
  | sleepSecs + 1 => do
      modify TestState.countTick
      if env.myCpu < 0 then pure () else doTick env
      fadeDelay env sleepSecs

/-- `test_bit_fade`, with the value it finds in `last_stage`, where it leaves `stage`. -/
def testBitFade (env : TestEnv arch) (passNum : ℕ) (lastStage : ℤ) (stage sleepSecs : ℕ) :
    TestM arch Unit :=
  let round := stage / 3
  match stage % 3 with
  | 0 => fadeFill env passNum round
  | 1 => if (stage : ℤ) ≠ lastStage then fadeDelay env sleepSecs else pure ()
  | _ => fadeCheck env passNum round

end Memtest
