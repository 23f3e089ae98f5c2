import Memtest.Tests.Machine
import Memtest.Lib.Xorshift

/-!
# Moving inversions with a fixed, a walking and a random pattern

`test_mov_inv_fixed`, `test_mov_inv_walk1` and `test_mov_inv_random` fill the chunks with a
pattern and then sweep over them, checking for the pattern and writing its complement. The first
two sweep up and down in turn, the third one only up. The pattern a word gets depends on how many
words the sweep has met before it, so it is a local variable that is carried from one word to the
next, over blocks and segments.

The value of a test, its number of ticks, is part of the state.
-/

namespace Memtest

open Hoare Xorshift

variable {arch : Arch}

/-- `rep stosq`: `length` words from `p`. -/
def storeWords (value : Testword arch) : (p length : ℕ) → TestM arch Unit
  | _, 0 => pure ()
  | p, length + 1 => do
      writeWord p value
      storeWords value (p + 1) length

/-- The block of the hand-optimised fill. It leaves `p` at the last word of the block, so the next
block begins there and writes this word again. -/
def fillBlock (value : Testword arch) (pe : ℕ) (r : ℕ × Unit) : TestM arch (ℕ × Unit) := do
  storeWords value r.1 (pe + 1 - r.1)
  pure (pe, r.2)

/-- The loop body that checks for one value and writes another. -/
def checkWrite (env : TestEnv arch) (p : ℕ) (expect value : Testword arch) : TestM arch Unit := do
  checkWord env p expect true
  writeWord p value

/-- `test_mov_inv_fixed`. -/
def testMovInvFixed (env : TestEnv arch) (iterations : ℕ) (pattern1 pattern2 : Testword arch) :
    TestM arch Unit := do
  env.vmMap.foldlM (segmentUp env arch.wordBytes (fillBlock pattern1)) ()
  (List.range iterations).foldlM (fun _ _ => do
    flushCaches env
    sweepUp env arch.wordBytes (fun p _ => checkWrite env p pattern1 pattern2) ()
    flushCaches env
    sweepDown env arch.wordBytes (fun p _ => checkWrite env p pattern2 pattern1) ()) ()

/-- The first pattern of `test_mov_inv_walk1`. -/
def walk1Pattern (arch : Arch) (offset : ℕ) (inverse : Bool) : Testword arch :=
  let pattern := BitVec.ofNat arch.bits 1 <<< offset
  if inverse = true then ~~~pattern else pattern

/-- `test_mov_inv_walk1`. The pattern moves by one bit from word to word and is carried over
blocks and segments. The way down begins with the complement of the pattern that the way up has
ended with, and rotates the other way before it is used. -/
def testMovInvWalk1 (env : TestEnv arch) (iterations offset : ℕ) (inverse : Bool) :
    TestM arch Unit := do
  let _ ← sweepUp env arch.wordBytes (fun p pattern => do
    writeWord p pattern
    pure (rotateLeftOne pattern)) (walk1Pattern arch offset inverse)
  (List.range iterations).foldlM (fun _ _ => do
    flushCaches env
    let pattern ← sweepUp env arch.wordBytes (fun p pattern => do
      checkWrite env p pattern (~~~pattern)
      pure (rotateLeftOne pattern)) (walk1Pattern arch offset inverse)
    flushCaches env
    let _ ← sweepDown env arch.wordBytes (fun p pattern => do
      checkWrite env p (rotateRightOne pattern) (~~~rotateRightOne pattern)
      pure (rotateRightOne pattern)) (~~~pattern)
    pure ()) ()

/-- `prsg`. -/
def prsg (state : Testword arch) : Testword arch :=
  match arch with
  | .b64 => xorshift 13 7 17 state
  | .b32 => xorshift 13 17 5 state

/-- What the random tests are seeded from: the time stamp counter, or else the pass number. -/
structure Clock where
  rdtsc : Bool
  tsc : ℕ
  passNum : ℕ

/-- The seed, before it is spread by a multiplication. -/
def Clock.seed (arch : Arch) (clock : Clock) : Testword arch :=
  BitVec.ofNat arch.bits (if clock.rdtsc = true then clock.tsc else 1 + clock.passNum)

/-- `test_mov_inv_random`. All three sweeps go upwards and start from the same seed, so the second
and the third one meet the numbers in the order in which they were written; the third one expects
their complements. -/
def testMovInvRandom (env : TestEnv arch) (clock : Clock) : TestM arch Unit := do
  let seed := clock.seed arch * BitVec.ofNat arch.bits 0x87654321
  let _ ← sweepUp env arch.wordBytes (fun p state => do
    writeWord p (prsg state)
    pure (prsg state)) seed
  let _ ← (List.range 2).foldlM (fun invert _ => do
    flushCaches env
    let _ ← sweepUp env arch.wordBytes (fun p state => do
      checkWrite env p (prsg state ^^^ invert) (~~~(prsg state ^^^ invert))
      pure (prsg state)) seed
    pure (~~~invert)) (BitVec.ofNat arch.bits 0)
  pure ()

end Memtest
