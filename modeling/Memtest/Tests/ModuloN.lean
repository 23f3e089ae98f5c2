import Memtest.Tests.MovInv

/-!
# Every n-th location (`tests/modulo_n.c`)

`test_modulo_n` writes `pattern1` to every `n`-th word of a chunk, beginning at `offset`, then
`pattern2` to all the others, and then checks the first ones. While it walks over the sparse words
it keeps the end pointer `n` words below the end of the chunk, so that `p` cannot overflow, and it
tests whether there is room for another step before it makes one.

No pointer is below `n` words here, since a segment lies above address `0x500` and `n` is 20. The
comparison `p <= pe - n` is written `p + n ≤ pe`.
-/

namespace Memtest

open Hoare

variable {arch : Arch} {α : Type}

/-- `do { body } while (p <= (pe - n) && (p += n))`. The value is the last `p`. -/
def doWhileStride (n : ℕ) (hn : 0 < n) (body : ℕ → TestM arch Unit) (p pe : ℕ) : TestM arch ℕ := do
  body p
  if p + n ≤ pe then doWhileStride n hn body (p + n) pe else pure p
termination_by pe - p

/-- `(end - start) < (n - 1)`. -/
def tooShort (arch : Arch) (n : ℕ) (c : Chunk) : Prop :=
  ((c.stop : ℤ) - c.start) / arch.wordBytes < n - 1

instance : Decidable (tooShort arch n c) := inferInstanceAs (Decidable (_ < _))

/-- The loop body over the segments where the test walks over the sparse words, which are `n`
apart from the offset on. The end is set back by `n` words in front of the walk, and a chunk of
less than `n` words is left out. -/
def sparseSegment (env : TestEnv arch) (n : ℕ) (hn : 0 < n) (offset : ℕ)
    (body : ℕ → TestM arch Unit) (seg : VmSegment) : TestM arch Unit := do
  let c ← chunkOf env arch.wordBytes seg
  if tooShort arch n c then skipRange env 1
  else
    let start := c.start / arch.wordBytes
    let stop := c.stop / arch.wordBytes - n
    let _ ← blocksUp env stop (fun pe p => doWhileStride n hn body p pe) start (start + offset)
    pure ()

/-- The loop body over the words where the test writes all the others. The local variables are the
pointer `p` and `k`. -/
def writeRest (n offset : ℕ) (pattern2 : Testword arch) (p k : ℕ) : TestM arch ℕ :=
  let next := if k + 1 = n then 0 else k + 1
  if k ≠ offset then do
    writeWord p pattern2
    pure next
  else pure next

/-- The loop body over the segments where the test writes all the others. -/
def restSegment (env : TestEnv arch) (n offset : ℕ) (pattern2 : Testword arch) (seg : VmSegment) :
    TestM arch Unit := do
  let c ← chunkOf env arch.wordBytes seg
  if tooShort arch n c then skipRange env 1
  else
    let start := c.start / arch.wordBytes
    let stop := c.stop / arch.wordBytes
    let _ ← blocksUp env stop (fun pe r => doWhileUp (writeRest n offset pattern2) r.1 pe r.2) start
      (start, 0)
    pure ()

/-- `test_modulo_n`. The sparse words are written once, all the others as many times as there are
iterations, and at the end the sparse words are checked. Segments go upwards each time. -/
def testModuloN (env : TestEnv arch) (iterations : ℕ) (pattern1 pattern2 : Testword arch) (n : ℕ)
    (hn : 0 < n) (offset : ℕ) : TestM arch Unit := do
  env.vmMap.foldlM (fun _ seg =>
    sparseSegment env n hn offset (fun p => writeWord p pattern1) seg) ()
  (List.range iterations).foldlM (fun _ _ =>
    env.vmMap.foldlM (fun _ seg => restSegment env n offset pattern2 seg) ()) ()
  flushCaches env
  env.vmMap.foldlM (fun _ seg =>
    sparseSegment env n hn offset (fun p => checkWord env p pattern1 true) seg) ()

end Memtest
