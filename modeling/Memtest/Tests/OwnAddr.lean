import Memtest.Tests.Machine

/-!
# Own addresses (`tests/own_addr.c`)

Each word is filled with its own address, and then checked for it. These tests run on one CPU at a
time and go through whole segments, not through chunks. The second one adds an offset that depends
on the window, and fills all windows before it checks any.
-/

namespace Memtest

open Hoare

variable {arch : Arch}

/-- The loop body over the segments, with a body for each word. It does not look whether the
segment ends before it starts. -/
def wholeSegment (env : TestEnv arch) (body : ℕ → TestM arch Unit) (seg : VmSegment) :
    TestM arch Unit := do
  let start := seg.start / arch.wordBytes
  let stop := seg.stop / arch.wordBytes
  let _ ← blocksUp env stop (fun pe r => doWhileUp (fun p _ => body p) r.1 pe r.2) start (start, ())
  pure ()

/-- The address of a word, plus the offset. -/
def ownAddress (offset : Testword arch) (p : ℕ) : Testword arch :=
  BitVec.ofNat arch.bits (p * arch.wordBytes) + offset

/-- `pattern_fill`. -/
def ownAddrFill (env : TestEnv arch) (offset : Testword arch) : TestM arch Unit := do
  env.vmMap.foldlM (fun _ seg =>
    wholeSegment env (fun p => writeWord p (ownAddress offset p)) seg) ()
  flushCaches env

/-- `pattern_check`. -/
def ownAddrCheck (env : TestEnv arch) (offset : Testword arch) : TestM arch Unit :=
  env.vmMap.foldlM (fun _ seg =>
    wholeSegment env (fun p => checkWord env p (ownAddress offset p) true) seg) ()

/-- `test_own_addr1`. A fill that bails out is still followed by the check. -/
def testOwnAddr1 (env : TestEnv arch) : TestM arch Unit := do
  tryCatch (ownAddrFill env 0) fun _ => pure ()
  ownAddrCheck env 0

/-- The offset of a window, from the first page of the first segment in it: on 64-bit builds what is
between virtual and physical addresses, on 32-bit builds the number of the window. -/
def windowOffset (arch : Arch) (pmBaseAddr : ℕ) : Testword arch :=
  let offset := pmBaseAddr / vmWindowSize * vmWindowSize
  let offset := if offset ≥ vmPinnedSize then offset - vmPinnedSize else 0
  match arch with
  | .b64 => BitVec.ofNat 64 (offset * pageSize)
  | .b32 => BitVec.ofNat 32 (offset / vmWindowSize)

/-- `vm_map[0].pm_base_addr`. -/
def firstPmBaseAddr (vmMap : List VmSegment) : ℕ := (vmMap.head?.map VmSegment.pmBaseAddr).getD 0

/-- `test_own_addr2`. -/
def testOwnAddr2 (env : TestEnv arch) (stage : ℕ) : TestM arch Unit :=
  let offset := windowOffset arch (firstPmBaseAddr env.vmMap)
  match stage with
  | 0 => ownAddrFill env offset
  | 1 => ownAddrCheck env offset
  | _ => pure ()

end Memtest
