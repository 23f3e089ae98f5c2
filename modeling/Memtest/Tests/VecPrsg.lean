import Memtest.Tests.MovInv
import Mathlib.Algebra.GroupWithZero.Nat
import Mathlib.Data.List.FinRange
import Mathlib.Data.Fin.VecNotation

/-!
# Vector-wide pseudo-random sequences (`tests/vec_prsg.c`)

Memory is filled and checked one block of `VEC_LANES` words at a time; each lane runs its own
xorshift stream. 64-bit builds have kernels for AVX2, SSE2, NEON and LASX. They differ in the
instructions they use and agree on what they do to a block: a fill kernel writes all blocks, a scan
kernel stops at the first block that is not as expected, which the dispatch function then handles
word by word. All kernels test after the block, so they process at least one.
-/

namespace Memtest

open Hoare Xorshift

variable {arch : Arch}

/-- `VEC_LANES`. -/
def vecLanes : ℕ := 4

instance : NeZero vecLanes := ⟨by decide⟩

/-- `VEC_BYTES`. -/
def vecBytes (arch : Arch) : ℕ := vecLanes * arch.wordBytes

/-- `vec_state_t`. -/
abbrev VecState (arch : Arch) := Fin vecLanes → Testword arch

/-- A loop over the lanes. -/
def forLanes (body : Fin vecLanes → TestM arch Unit) : TestM arch Unit :=
  (List.finRange vecLanes).foldlM (fun _ l => body l) ()

/-- `lane_salt`. -/
def laneSalt (arch : Arch) : VecState arch :=
  match arch with
  | .b64 => ![0x9e3779b97f4a7c15#64, 0xbf58476d1ce4e5b9#64, 0x94d049bb133111eb#64,
      0x2545f4914f6cdd1d#64]
  | .b32 => ![0x9e3779b9#32, 0xbf58476d#32, 0x94d049bb#32, 0x2545f491#32]

/-- `prsg_inverse`. -/
def prsgInverse (state : Testword arch) : Testword arch :=
  match arch with
  | .b64 => xorshiftBack 13 7 17 state
  | .b32 => xorshiftBack 13 17 5 state

/-- `seed_lanes`. -/
def seedLanes (seed : Testword arch) (splat : Bool) : VecState arch :=
  if splat = true then fun _ => prsg (if seed ≠ 0 then seed else laneSalt arch 0)
  else fun l => prsg (if seed ^^^ laneSalt arch l = 0 then laneSalt arch l
    else seed ^^^ laneSalt arch l)

/-! ### Scalar kernels -/

/-- The lane states after a block. -/
def nextState (splat : Bool) (st : VecState arch) : VecState arch :=
  if splat = true then st else fun l => prsg (st l)

/-- The lane states before a block. -/
def prevState (splat : Bool) (st : VecState arch) : VecState arch :=
  if splat = true then st else fun l => prsgInverse (st l)

/-- `vec_fill_scalar`. -/
def vecFillScalar (splat : Bool) : (nblocks : ℕ) → VecState arch → ℕ → TestM arch (VecState arch)
  | 0, st, _ => pure st
  | nblocks + 1, st, p => do
      forLanes fun l => writeWord (p + l) (st l)
      vecFillScalar splat nblocks (nextState splat st) (p + vecLanes)

/-- `vec_check_fwd_scalar`. -/
def vecCheckFwdScalar (env : TestEnv arch) (splat useForBadram : Bool) :
    (nblocks : ℕ) → VecState arch → ℕ → TestM arch (VecState arch)
  | 0, st, _ => pure st
  | nblocks + 1, st, p => do
      forLanes fun l => do
        checkWord env (p + l) (st l) useForBadram
        writeWord (p + l) (~~~st l)
      vecCheckFwdScalar env splat useForBadram nblocks (nextState splat st) (p + vecLanes)

/-- The lines that check one block for the complement of the lane states and restore it. -/
def checkBlockRev (env : TestEnv arch) (useForBadram : Bool) (st : VecState arch) (q : ℕ) :
    TestM arch Unit :=
  forLanes fun l => do
    checkWord env (q + l) (~~~st l) useForBadram
    writeWord (q + l) (st l)

/-- `vec_check_rev_scalar`. -/
def vecCheckRevScalar (env : TestEnv arch) (splat useForBadram : Bool) :
    (nblocks : ℕ) → VecState arch → ℕ → TestM arch (VecState arch)
  | 0, st, _ => pure st
  | k + 1, st, p => do
      checkBlockRev env useForBadram (prevState splat st) (p + k * vecLanes)
      vecCheckRevScalar env splat useForBadram k (prevState splat st) p

/-! ### Vector kernels -/

/-- `AVX2_STEP_FWD` and its counterparts. -/
def simdStepFwd (x : Testword arch) : Testword arch :=
  let x := x ^^^ x <<< 13
  let x := x ^^^ x >>> 7
  x ^^^ x <<< 17

/-- `AVX2_STEP_BACK` and its counterparts. -/
def simdStepBack (x : Testword arch) : Testword arch :=
  let x := x ^^^ x <<< 17
  let x := x ^^^ x <<< 34
  let x := x ^^^ x >>> 7
  let x := x ^^^ x >>> 14
  let x := x ^^^ x >>> 28
  let x := x ^^^ x >>> 56
  let x := x ^^^ x <<< 13
  let x := x ^^^ x <<< 26
  x ^^^ x <<< 52

def simdNext (splat : Bool) (st : VecState arch) : VecState arch :=
  if splat = true then st else fun l => simdStepFwd (st l)

def simdPrev (splat : Bool) (st : VecState arch) : VecState arch :=
  if splat = true then st else fun l => simdStepBack (st l)

/-- Reading a block and comparing it with `expect`, all lanes at once. -/
def compareBlock (env : TestEnv arch) (p : ℕ) (expect : VecState arch) : TestM arch Bool := do
  forLanes fun l => modify fun s => s.record (.check (p + l) (expect l))
  let s ← get
  pure ((List.finRange vecLanes).all fun l => env.readBack (p + l) (s.store (p + l)) == expect l)

/-- The fill kernels: a first block and `rest` more. -/
def simdFill (splat : Bool) : (rest : ℕ) → VecState arch → ℕ → TestM arch (VecState arch)
  | 0, st, p => do
      forLanes fun l => writeWord (p + l) (st l)
      pure (simdNext splat st)
  | rest + 1, st, p => do
      forLanes fun l => writeWord (p + l) (st l)
      simdFill splat rest (simdNext splat st) (p + vecLanes)

/-- The loop body of `vec_scan_fwd_avx2` and its counterparts: whether the block matches, and the
lane states. -/
def scanBlockFwd (env : TestEnv arch) (splat : Bool) (st : VecState arch) (p : ℕ) :
    TestM arch (Bool × VecState arch) := do
  let same ← compareBlock env p st
  if same = true then do
    forLanes fun l => writeWord (p + l) (~~~st l)
    pure (true, simdNext splat st)
  else pure (false, st)

/-- `vec_scan_fwd_avx2` and its counterparts: the number of blocks completed, and the lane
states. -/
def simdScanFwd (env : TestEnv arch) (splat : Bool) :
    (rest : ℕ) → VecState arch → ℕ → TestM arch (ℕ × VecState arch)
  | 0, st, p => do
      let r ← scanBlockFwd env splat st p
      pure (if r.1 = true then 1 else 0, r.2)
  | rest + 1, st, p => do
      let r ← scanBlockFwd env splat st p
      if r.1 = true then do
        let r' ← simdScanFwd env splat rest r.2 (p + vecLanes)
        pure (r'.1 + 1, r'.2)
      else pure (0, r.2)

/-- The loop body of `vec_scan_rev_avx2` and its counterparts. -/
def scanBlockRev (env : TestEnv arch) (splat : Bool) (st : VecState arch) (q : ℕ) :
    TestM arch (Bool × VecState arch) := do
  let same ← compareBlock env q fun l => ~~~simdPrev splat st l
  if same = true then do
    forLanes fun l => writeWord (q + l) (simdPrev splat st l)
    pure (true, simdPrev splat st)
  else pure (false, simdPrev splat st)

/-- `vec_scan_rev_avx2` and its counterparts: the number of blocks that match, from `q` downwards,
and the lane states at the place where the scan stopped. The step back comes in front of each
comparison. -/
def simdScanRev (env : TestEnv arch) (splat : Bool) :
    (rest : ℕ) → VecState arch → ℕ → TestM arch (ℕ × VecState arch)
  | 0, st, q => do
      let r ← scanBlockRev env splat st q
      pure (if r.1 = true then 1 else 0, r.2)
  | rest + 1, st, q => do
      let r ← scanBlockRev env splat st q
      if r.1 = true then do
        let r' ← simdScanRev env splat rest r.2 (q - vecLanes)
        pure (r'.1 + 1, r'.2)
      else pure (0, r.2)

/-! ### Dispatch -/

/-- The vector branch of `vec_check_fwd`. A block that does not match is done again by the scalar
kernel, which reports, and the scan goes on behind it. The scan itself has written the complement
to the blocks that matched. -/
def simdCheckFwd (env : TestEnv arch) (splat useForBadram : Bool) (nblocks : ℕ)
    (st : VecState arch) (p : ℕ) : TestM arch (VecState arch) :=
  if _ : 0 < nblocks then do
    let r ← simdScanFwd env splat (nblocks - 1) st p
    if nblocks - r.1 = 0 then pure r.2
    else
      -- the scan stopped at a block that does not match
      let st ← vecCheckFwdScalar env splat useForBadram 1 r.2 (p + r.1 * vecLanes)
      simdCheckFwd env splat useForBadram (nblocks - r.1 - 1) st (p + r.1 * vecLanes + vecLanes)
  else pure st
termination_by nblocks

/-- The loop in the vector branch of `vec_check_rev`, from the block at `q` down. As in the
forward direction the scan stops at a block that does not match, which is then checked word by
word. -/
def simdCheckRev (env : TestEnv arch) (splat useForBadram : Bool) (nblocks : ℕ)
    (st : VecState arch) (q : ℕ) : TestM arch (VecState arch) :=
  if _ : 0 < nblocks then do
    let r ← simdScanRev env splat (nblocks - 1) st q
    if nblocks - r.1 = 0 then pure r.2
    else
      -- the lane states are already those of the block that does not match
      checkBlockRev env useForBadram r.2 (q - r.1 * vecLanes)
      simdCheckRev env splat useForBadram (nblocks - r.1 - 1) r.2 (q - r.1 * vecLanes - vecLanes)
  else pure st
termination_by nblocks

/-- Whether a build has kernels for the vector instructions of the CPU (`simd_tier`). -/
def useSimd (arch : Arch) (simdTier : Bool) : Bool :=
  match arch with
  | .b64 => simdTier
  | .b32 => false

/-- `vec_fill`. -/
def vecFill (simdTier splat : Bool) (nblocks : ℕ) (st : VecState arch) (p : ℕ) :
    TestM arch (VecState arch) :=
  if useSimd arch simdTier = true then simdFill splat (nblocks - 1) st p
  else vecFillScalar splat nblocks st p

/-- `vec_check_fwd`. -/
def vecCheckFwd (env : TestEnv arch) (simdTier splat useForBadram : Bool) (nblocks : ℕ)
    (st : VecState arch) (p : ℕ) : TestM arch (VecState arch) :=
  if useSimd arch simdTier = true then simdCheckFwd env splat useForBadram nblocks st p
  else vecCheckFwdScalar env splat useForBadram nblocks st p

/-- `vec_check_rev`. -/
def vecCheckRev (env : TestEnv arch) (simdTier splat useForBadram : Bool) (nblocks : ℕ)
    (st : VecState arch) (p : ℕ) : TestM arch (VecState arch) :=
  if useSimd arch simdTier = true then
    simdCheckRev env splat useForBadram nblocks st (p + (nblocks - 1) * vecLanes)
  else vecCheckRevScalar env splat useForBadram nblocks st p

end Memtest
