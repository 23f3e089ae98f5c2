import Memtest.Tests.Machine

/-!
# Walking ones on the address lines (`tests/addr_walk1.c`)

For every pair of address lines of a segment a word is written at either of two addresses, and the
first one is looked at again. This test runs on one CPU and goes through whole segments.
-/

namespace Memtest

open Hoare

variable {arch : Arch}

/-- The word at an address. -/
def wordAt (addr : Testword arch) : ℕ := addr.toNat / arch.wordBytes

/-- The values of `mask1`, and of `mask2`, before it is shifted out. -/
def walkMasks (arch : Arch) : List (Testword arch) :=
  (List.range (arch.bits - arch.wordBytes.log2)).map fun i =>
    BitVec.ofNat arch.bits (arch.wordBytes <<< i)

/-- `addr_error`, and the write that recovers from it. -/
def addrError (p1 p2 : ℕ) (expect actual : Testword arch) : TestM arch Unit := do
  modify fun s => s.record (.addrError p1 p2 expect actual)
  writeWord p1 expect

/-- The first address is looked at for what has been written to it. -/
def checkAddr (env : TestEnv arch) (p1 p2 : ℕ) (expect : Testword arch) : TestM arch Unit := do
  let actual ← readWord env p1
  if actual ≠ expect then addrError p1 p2 expect actual else pure ()

/-- The loop over the second address. The same mask as for the first address is passed over, and a
mask that leads beyond the end of the region ends the loop. After each write the first word is
checked. -/
def walkSecond (env : TestEnv arch) (invert pb pe p1 expect : Testword arch) :
    List (Testword arch) → TestM arch Unit
  | [] => pure ()
  | mask2 :: masks =>
      let p2 := pb ||| mask2
      if p2 = p1 then walkSecond env invert pb pe p1 expect masks
      else if p2 > pe then pure ()
      else do
        writeWord (wordAt p2) (~~~invert ^^^ p2)
        checkAddr env (wordAt p1) (wordAt p2) expect
        walkSecond env invert pb pe p1 expect masks

/-- The loop over the first address. The word is written with its own address, inverted or not,
and the inner loop goes over all masks with the other polarity. A mask that leads beyond the end
of the region ends this loop as well. -/
def walkFirst (env : TestEnv arch) (invert pb pe : Testword arch) :
    List (Testword arch) → TestM arch Unit
  | [] => pure ()
  | mask1 :: masks =>
      let p1 := pb ||| mask1
      if p1 > pe then pure ()
      else do
        writeWord (wordAt p1) (invert ^^^ p1)
        walkSecond env invert pb pe p1 (invert ^^^ p1) (walkMasks arch)
        walkFirst env invert pb pe masks

/-- One of the two rounds. -/
def addrWalkRound (env : TestEnv arch) (invert : Testword arch) : TestM arch Unit := do
  modify TestState.countTick
  if env.myCpu < 0 then pure ()
  else
    env.vmMap.foldlM (fun _ seg => walkFirst env invert (.ofNat arch.bits seg.start)
      (.ofNat arch.bits seg.stop) (walkMasks arch)) ()
    doTick env

/-- `test_addr_walk1`. It resets its element of `test_addr` before it looks at `my_cpu`. -/
def testAddrWalk1 (env : TestEnv arch) : TestM arch Unit := do
  useCpuSlot env.myCpu
  addrWalkRound env 0
  addrWalkRound env (BitVec.allOnes arch.bits)

end Memtest
