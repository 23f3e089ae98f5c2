import Memtest.Tests.MovInvRng
import Memtest.Tests.BitFade

/-!
# Bus stress (`tests/bus_stress.c`)

Each chunk is split into two halves. While one half is filled with a sequence, the other half is
checked for the sequence it was filled with before, in short bursts of vector blocks that take
turns. The seeds of the sequences depend on nothing but the pass, the round, the segment and the
half.

The pauses between the bursts are left out: they have no effect on memory, and no CPU waits for
another one in them.
-/

namespace Memtest

open Hoare

variable {arch : Arch}

/-- `bus_mix`. -/
def busMix (x : Testword arch) : Testword arch :=
  match arch with
  | .b64 => fadeMixSteps 30 0xbf58476d1ce4e5b9 27 0x94d049bb133111eb 31 x
  | .b32 => fadeMixSteps 16 0x85ebca6b 13 0xc2b2ae35 16 x

/-- The factors of `bus_seed`. -/
def busSeedFactors : Arch → ℕ × ℕ × ℕ
  | .b64 => (0x9e3779b97f4a7c15, 0xbf58476d1ce4e5b9, 0x94d049bb133111eb)
  | .b32 => (0x9e3779b9, 0xbf58476d, 0x94d049bb)

/-- `bus_seed`. -/
def busSeed (arch : Arch) (passNum : ℕ) (iteration : ℤ) (segment half : ℕ) : Testword arch :=
  let k := busSeedFactors arch
  busMix (BitVec.ofNat arch.bits (1 + passNum) * BitVec.ofNat arch.bits k.1 +
    BitVec.ofInt arch.bits (1 + iteration) * BitVec.ofNat arch.bits k.2.1 +
    BitVec.ofNat arch.bits (3 * segment + half + 1) * BitVec.ofNat arch.bits k.2.2)

/-- The loop of `burst_interleave`: `burstBlocks` blocks are written at one place and as many are
read at the other one in turn, until both have none left. Each side keeps its own lane states, and
a side that is done is not called any more. -/
def burstLoop (env : TestEnv arch) (simdTier : Bool) (burstBlocks : ℕ) (hburst : 0 < burstBlocks)
    (pw nw : ℕ) (stw : VecState arch) (pr nr : ℕ) (str : VecState arch) : TestM arch Unit :=
  if _ : 0 < nw ∨ 0 < nr then do
    -- the kernels are never called with no block
    let kw := if nw < burstBlocks then nw else burstBlocks
    let stw ← if 0 < kw then vecFill simdTier false kw stw pw else pure stw
    let kr := if nr < burstBlocks then nr else burstBlocks
    let str ← if 0 < kr then vecCheckFwd env simdTier false false kr str pr else pure str
    burstLoop env simdTier burstBlocks hburst (pw + kw * vecLanes) (nw - kw) stw
      (pr + kr * vecLanes) (nr - kr) str
  else pure ()
termination_by nw + nr
decreasing_by split <;> split <;> omega

/-- `burst_interleave`. Without a verifier nothing is checked, and no state of it is used. -/
def burstInterleave (env : TestEnv arch) (simdTier : Bool) (burstBlocks : ℕ)
    (hburst : 0 < burstBlocks) (pw nw : ℕ) (stw : VecState arch) (pr nr : ℕ)
    (str : Option (VecState arch)) : TestM arch Unit :=
  match str with
  | some str => burstLoop env simdTier burstBlocks hburst pw nw stw pr nr str
  | none => burstLoop env simdTier burstBlocks hburst pw nw stw pr 0 stw

/-- A stray word at an edge: the constant of the round before is checked, and that of this round is
written. -/
def busEdge (env : TestEnv arch) (iteration : ℕ) (prev cur : Testword arch) (q : ℕ) :
    TestM arch Unit := do
  if iteration > 0 then checkWord env q prev false
  else do
    let _ ← readWord env q
    pure ()
  writeWord q cur

/-- The bursts of one chunk. A sweep writes one half with the seed of its own iteration and checks
the other half: the first sweep checks what the second sweep of the previous iteration has
written, which in the first iteration is nothing, and the second sweep checks what the first one
has. -/
def busBursts (env : TestEnv arch) (simdTier : Bool) (passNum iteration : ℕ) (second : Bool)
    (burstBlocks : ℕ) (hburst : 0 < burstBlocks) (x : Split) (j : ℕ) : TestM arch Unit :=
  let seed := fun (iteration : ℤ) half => seedLanes (busSeed arch passNum iteration j half) false
  let nblocks := x.nbody / vecLanes
  let nb1 := nblocks / 2
  let nb2 := nblocks - nb1
  let h1 := x.bstart
  let h2 := x.bstart + nb1 * vecLanes
  if second = false then
    burstInterleave env simdTier burstBlocks hburst h1 nb1 (seed iteration 0) h2 nb2
      (if iteration > 0 then some (seed (iteration - 1) 1) else none)
  else
    burstInterleave env simdTier burstBlocks hburst h2 nb2 (seed iteration 1) h1 nb1
      (some (seed iteration 0))

/-- The loop body of `do_sweep`, for a segment and its number. The edges, which do not fill a
block of lanes, are done word by word in the first sweep. The body of the chunk is one block, so
there is one tick for it whatever its size. -/
def busSegment (env : TestEnv arch) (simdTier : Bool) (passNum iteration : ℕ) (second : Bool)
    (burstBlocks : ℕ) (hburst : 0 < burstBlocks) (seg : VmSegment × ℕ) : TestM arch Unit := do
  let c ← chunkOf env (vecBytes arch) seg.1
  if c.stop < c.start then skipRange env 1
  else
    let x := splitChunk arch c
    let edge := busEdge env iteration (busSeed arch passNum (iteration - 1) seg.2 2)
      (busSeed arch passNum iteration seg.2 2)
    if second = false then unlessDummy env do
      lowerEdge x edge
      upperEdge x edge
    else pure ()
    if x.nbody = 0 then skipRange env 1
    else oneBlock env (fun _ _ =>
      busBursts env simdTier passNum iteration second burstBlocks hburst x seg.2) 0 ()

/-- `do_sweep`. -/
def doSweep (env : TestEnv arch) (simdTier : Bool) (passNum iteration : ℕ) (second : Bool)
    (burstBlocks : ℕ) (hburst : 0 < burstBlocks) : TestM arch Unit :=
  env.vmMap.zipIdx.foldlM (fun _ seg =>
    busSegment env simdTier passNum iteration second burstBlocks hburst seg) ()

/-- `burst_blocks`. -/
def busBurstBlocks (iteration : ℕ) : ℕ := 8 <<< (iteration % 3)

theorem busBurstBlocks_pos (iteration : ℕ) : 0 < busBurstBlocks iteration := by
  rw [busBurstBlocks, Nat.shiftLeft_eq]
  exact Nat.mul_pos (by decide) (Nat.two_pow_pos _)

/-- `test_bus_stress`. -/
def testBusStress (env : TestEnv arch) (simdTier : Bool) (passNum iteration : ℕ) :
    TestM arch Unit := do
  doSweep env simdTier passNum iteration false _ (busBurstBlocks_pos iteration)
  flushCachesAll env
  doSweep env simdTier passNum iteration true _ (busBurstBlocks_pos iteration)
  flushCachesAll env

end Memtest
