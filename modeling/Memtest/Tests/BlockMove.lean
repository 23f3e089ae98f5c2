import Memtest.Tests.ModuloN

/-!
# Moving blocks of memory (`tests/block_move.c`)

The test fills memory with a pattern in which words come in pairs, moves blocks of memory around
with string instructions, and then checks that the two words of each pair are still the same.

The fill and the check walk over a chunk with a pointer `p` that goes on where it was at the end of
a block. The moves do not advance `p`: for each block they move everything from the start of the
chunk to the end of the block. A block has at least 16 words when it is moved, so `half_length` is
at least 8.

The moves are those of the x86 builds, where `rep movs` with the count 0 moves nothing. In the
LoongArch and AArch64 builds each move is a loop that tests its count behind a turn. For a
`half_length` of more than 8 it moves the same words. With 8 the second loop begins at the count 0,
which wraps in the first turn, and goes on far beyond the chunk. These loops are left out here.
-/

namespace Memtest

open Hoare Xorshift

variable {arch : Arch} {α : Type}

/-! ### The initial pattern -/

/-- The lines `write_word(p + 0, …)`, `write_word(p + 1, …)` and so on. -/
def writeWords : (p : ℕ) → List (Testword arch) → TestM arch Unit
  | _, [] => pure ()
  | p, value :: values => do
      writeWord p value
      writeWords (p + 1) values

/-- The values of the sixteen words at `p`. -/
def movePattern (pattern1 : Testword arch) : List (Testword arch) :=
  let pattern2 := ~~~pattern1
  [pattern1, pattern1, pattern1, pattern1, pattern2, pattern2, pattern1, pattern1,
    pattern1, pattern1, pattern2, pattern2, pattern1, pattern1, pattern2, pattern2]

/-- The loop body over the words of a block where the test writes the initial pattern. -/
def fillSixteen (p : ℕ) (pattern1 : Testword arch) : TestM arch (Testword arch) := do
  writeWords p (movePattern pattern1)
  pure (rotateLeftOne pattern1)

/-- The loop body over the segments where the test writes the initial pattern. -/
def fillMoveSegment (env : TestEnv arch) (seg : VmSegment) : TestM arch Unit := do
  let c ← chunkOf env (16 * arch.wordBytes) seg
  if tooShort arch 16 c then skipRange env 1
  else
    let start := c.start / arch.wordBytes
    let stop := c.stop / arch.wordBytes
    let _ ← blocksUp env stop (fun pe p => do
      let r ← doWhileBy 16 (by decide) fillSixteen p pe (BitVec.ofNat arch.bits 1)
      pure r.1) start start
    pure ()

/-! ### The moves -/

/-- `rep movs`, forwards: the value is the source pointer it leaves. The count is tested before each
turn, as on x86; the loops in the code for the other processors test it afterwards. -/
def repMovs (env : TestEnv arch) (src dst : ℕ) : (count : ℕ) → TestM arch ℕ
  | 0 => pure src
  | count + 1 => do
      let value ← readWord env src
      writeWord dst value
      repMovs env (src + 1) (dst + 1) count

/-- The assembly code of the x86 builds, which moves the words from `p` to the end of a block. The
last move goes on from the source pointer that the second one leaves. -/
def moveBlock (env : TestEnv arch) (p halfLength : ℕ) : TestM arch Unit := do
  let pm := p + halfLength
  -- the first half to the second half
  let _ ← repMovs env p pm halfLength
  -- the second half, less its last 8 words, to the first half, 8 words up
  let src ← repMovs env pm (p + 8) (halfLength - 8)
  -- and the words left over to the start of the first half
  let _ ← repMovs env src p 8
  pure ()

/-- The loop over the blocks of a chunk that ends at `stop`, for a body that does without the usual
`ticks++` and `do_tick`. -/
def forBlocks (env : TestEnv arch) (stop : ℕ) (body : ℕ → TestM arch Unit) (pe : ℕ) :
    TestM arch Unit :=
  if _ : pe + env.spinSize ≤ stop then do
    body (pe + (env.spinSize - 1))
    forBlocks env stop body (pe + (env.spinSize - 1) + 1)
  else body stop
termination_by stop - pe
decreasing_by have := env.spinSize_pos; omega

/-- The iterations of the moves of a block. -/
def moveIterations (env : TestEnv arch) (iterations p pe : ℕ) : TestM arch Unit :=
  (List.range iterations).foldlM (fun _ _ =>
    oneBlock env (fun pe _ => moveBlock env p ((pe - p + 1) / 2)) pe ()) ()

/-- The loop body over the segments where the test moves the data around. -/
def moveSegment (env : TestEnv arch) (iterations : ℕ) (seg : VmSegment) : TestM arch Unit := do
  let c ← chunkOf env (16 * arch.wordBytes) seg
  if tooShort arch 16 c then skipRange env iterations
  else
    let start := c.start / arch.wordBytes
    let stop := c.stop / arch.wordBytes
    forBlocks env stop (moveIterations env iterations start) start

/-! ### The check -/

/-- The lines that compare two adjacent words. -/
def checkPair (env : TestEnv arch) (p : ℕ) : TestM arch Unit := do
  let p0 ← readWord env (p + 0)
  let p1 ← readWord env (p + 1)
  if p0 ≠ p1 then dataError p p0 p1 false else pure ()

/-- The loop body over the segments where the test checks the data. -/
def checkMoveSegment (env : TestEnv arch) (seg : VmSegment) : TestM arch Unit := do
  let c ← chunkOf env (16 * arch.wordBytes) seg
  if tooShort arch 16 c then skipRange env 1
  else
    let start := c.start / arch.wordBytes
    let stop := c.stop / arch.wordBytes
    let _ ← blocksUp env stop (fun pe p => do
      let r ← doWhileBy 2 (by decide) (fun p _ => checkPair env p) p pe ()
      pure r.1) start start
    pure ()

/-- `test_block_move`. -/
def testBlockMove (env : TestEnv arch) (iterations : ℕ) : TestM arch Unit := do
  env.vmMap.foldlM (fun _ seg => fillMoveSegment env seg) ()
  flushCaches env
  env.vmMap.foldlM (fun _ seg => moveSegment env iterations seg) ()
  flushCaches env
  env.vmMap.foldlM (fun _ seg => checkMoveSegment env seg) ()

end Memtest
