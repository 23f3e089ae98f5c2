import Memtest.Tests.VecPrsg

/-!
# Moving inversions with vector-wide random sequences (`tests/mov_inv_rng.c`)

The chunk of a segment is split into a body of whole vector blocks and the stray words at its
edges. The blocks get the lane sequences, which run through all segments, and the stray words one
constant. The downward sweep steps the lane states back from where the upward sweep has left them.
-/

namespace Memtest

open Hoare

variable {arch : Arch}

/-- `round_up`. -/
def roundUp (arch : Arch) (value alignSize : ℕ) : ℕ :=
  roundDown arch ((value + (alignSize - 1)) % 2 ^ arch.bits) alignSize

/-- How a chunk is split: its first and last word, where its body begins, and the number of words
of its body. -/
structure Split where
  start : ℕ
  stop : ℕ
  bstart : ℕ
  nbody : ℕ
  deriving DecidableEq, Repr

/-- The computation of `bstart`, `nwords` and `nbody`. -/
def splitChunk (arch : Arch) (c : Chunk) : Split :=
  let stop := c.stop / arch.wordBytes
  let bstart := roundUp arch c.start (vecBytes arch) / arch.wordBytes
  let nwords := if bstart ≤ stop then stop - bstart + 1 else 0
  { start := c.start / arch.wordBytes
    stop := stop
    bstart := bstart
    nbody := nwords - nwords % vecLanes }

/-- The words `q` with `first ≤ q && q < limit`, upwards. -/
def forWords (first limit : ℕ) (body : ℕ → TestM arch Unit) : TestM arch Unit :=
  (List.range' first (limit - first)).foldlM (fun _ q => body q) ()

/-- The loop `for (q = start; q < bstart && q <= end; q++)`. -/
def lowerEdge (x : Split) (body : ℕ → TestM arch Unit) : TestM arch Unit :=
  forWords x.start (min x.bstart (x.stop + 1)) body

/-- The loop `for (q = bstart + nbody; q <= end; q++)`. -/
def upperEdge (x : Split) (body : ℕ → TestM arch Unit) : TestM arch Unit :=
  forWords (x.bstart + x.nbody) (x.stop + 1) body

/-- A block of an upward pass: `p` ends up behind the block. -/
def vecBlockUp (kernel : (nblocks : ℕ) → VecState arch → ℕ → TestM arch (VecState arch))
    (pe : ℕ) (r : ℕ × VecState arch) : TestM arch (ℕ × VecState arch) := do
  let st ← kernel ((pe + 1 - r.1) / vecLanes) r.2 r.1
  pure (pe + 1, st)

/-- A block of the downward pass. -/
def vecBlockDown (kernel : (nblocks : ℕ) → VecState arch → ℕ → TestM arch (VecState arch))
    (ps : ℕ) (r : ℕ × VecState arch) : TestM arch (ℕ × VecState arch) := do
  let st ← kernel ((r.1 + 1 - ps) / vecLanes) r.2 ps
  pure (ps - 1, st)

/-- `if (my_cpu >= 0)`. -/
def unlessDummy (env : TestEnv arch) (act : TestM arch Unit) : TestM arch Unit :=
  if 0 ≤ env.myCpu then act else pure ()

/-- The loop body over the segments in the two upward passes. The words in front of the first full
block of lanes and behind the last one are done with `edge`, the blocks between them with
`kernel`. The lane states are carried from segment to segment. The dummy run has no edges. -/
def rngSegmentUp (env : TestEnv arch) (edge : ℕ → TestM arch Unit)
    (kernel : (nblocks : ℕ) → VecState arch → ℕ → TestM arch (VecState arch))
    (st : VecState arch) (seg : VmSegment) : TestM arch (VecState arch) := do
  let c ← chunkOf env (vecBytes arch) seg
  if c.stop < c.start then do
    skipRange env 1
    pure st
  else
    let x := splitChunk arch c
    unlessDummy env do
      lowerEdge x edge
      upperEdge x edge
    if x.nbody = 0 then do
      skipRange env 1
      pure st
    else do
      let r ← blocksUp env (x.bstart + (x.nbody - 1)) (vecBlockUp kernel) x.bstart (x.bstart, st)
      pure r.2

/-- The loop body over the segments in the downward pass. Here the upper edge comes first and the
lower one last, around the blocks, and a chunk without a block still has both. -/
def rngSegmentDown (env : TestEnv arch) (edge : ℕ → TestM arch Unit)
    (kernel : (nblocks : ℕ) → VecState arch → ℕ → TestM arch (VecState arch))
    (st : VecState arch) (seg : VmSegment) : TestM arch (VecState arch) := do
  let c ← chunkOf env (vecBytes arch) seg
  if c.stop < c.start then do
    skipRange env 1
    pure st
  else
    let x := splitChunk arch c
    unlessDummy env (upperEdge x edge)
    if x.nbody = 0 then do
      unlessDummy env (lowerEdge x edge)
      skipRange env 1
      pure st
    else do
      let bend := x.bstart + (x.nbody - 1)
      let r ← blocksDown env x.bstart (vecBlockDown kernel) bend (bend, st)
      unlessDummy env (lowerEdge x edge)
      pure r.2

/-- `test_mov_inv_rng`. The first pass fills the memory from the seed, the second one checks it
upwards and leaves the complement, and the third one goes back through the same lane states and
leaves the pattern again. The edges have one fixed word, the first lane of the seed. -/
def testMovInvRng (env : TestEnv arch) (simdTier : Bool) (clock : Clock) (splatRound : Bool) :
    TestM arch Unit := do
  let st := seedLanes (clock.seed arch * BitVec.ofNat arch.bits 0x12345678) splatRound
  let epat := st 0
  let _ ← env.vmMap.foldlM (rngSegmentUp env (fun q => writeWord q epat)
    (vecFill simdTier splatRound)) st
  flushCaches env
  let st ← env.vmMap.foldlM (rngSegmentUp env (fun q => checkWrite env q epat (~~~epat))
    (vecCheckFwd env simdTier splatRound true)) st
  flushCaches env
  let _ ← env.vmMap.reverse.foldlM (rngSegmentDown env
    (fun q => checkWrite env q (~~~epat) epat) (vecCheckRev env simdTier splatRound true)) st
  pure ()

end Memtest
