import Memtest.Lib.Hoare
import Memtest.Tests.Chunk
import Mathlib.Logic.Function.Basic

/-!
# What the memory tests have in common (`tests/test_helper.h`)

The tests walk over the chunks of one CPU with pointers to `testword_t`. A pointer is a word number
here, its address divided by the size of a word. No pointer of these tests wraps, since a segment
lies above address `0x500`; a comparison of a pointer difference is written with the smaller
pointer on the other side.

All tests split a chunk into blocks of at most `SPIN_SIZE` words, in the same two loops, and most
of them walk over a block word by word. These loops are stated once, with the body as a parameter.

A test runs on a memory that may have faults: a read of a word returns what `readBack` makes of the
value last written to it. What the test does is recorded in a log.
-/

namespace Memtest

open Hoare

/-- `testword_t`. -/
abbrev Testword (arch : Arch) := BitVec arch.bits

/-- What a test does, as far as its effect can be seen from outside. A `check` is a read of a word
that is compared with `expect`. -/
inductive Event (arch : Arch)
  | write (p : ℕ) (value : Testword arch)
  | check (p : ℕ) (expect : Testword arch)
  | dataError (p : ℕ) (good bad : Testword arch) (useForBadram : Bool)
  | addrError (p q : ℕ) (good bad : Testword arch)
  | flush
  | tick
  deriving DecidableEq

/-- What a test reads and does not change. `bail n` is the value of `bail` after the `n`-th call of
`do_tick`. -/
structure TestEnv (arch : Arch) where
  spinSize : ℕ
  spinSize_pos : 0 < spinSize
  vmMap : List VmSegment
  cfg : ChunkConfig
  myCpu : ℤ
  readBack : ℕ → Testword arch → Testword arch
  bail : ℕ → Bool

/-- The memory, the log, the local variable `ticks`, the number of calls of `do_tick`, and the
indices at which elements of arrays with one element for each CPU have been accessed. -/
structure TestState (arch : Arch) where
  store : ℕ → Testword arch
  log : List (Event arch)
  ticks : ℕ
  doTicks : ℕ
  cpuSlots : List ℤ

/-- Why a test ends early: a `BAILOUT`, or a division by zero in `calculate_chunk`. -/
inductive Exit
  | bailout
  | divideError
  deriving DecidableEq

/-- A part of a test. -/
abbrev TestM (arch : Arch) (α : Type) := Prog Exit (TestState arch) α

variable {arch : Arch} {α β : Type}

/-- A state before the test. -/
def TestState.init (store : ℕ → Testword arch) : TestState arch := ⟨store, [], 0, 0, []⟩

def TestState.record (s : TestState arch) (e : Event arch) : TestState arch :=
  { s with log := s.log ++ [e] }

def TestState.set (s : TestState arch) (p : ℕ) (value : Testword arch) : TestState arch :=
  { s.record (.write p value) with store := Function.update s.store p value }

def TestState.countTick (s : TestState arch) : TestState arch := { s with ticks := s.ticks + 1 }

def TestState.doTick (s : TestState arch) : TestState arch :=
  { s.record .tick with doTicks := s.doTicks + 1 }

def TestState.useSlot (s : TestState arch) (i : ℤ) : TestState arch :=
  { s with cpuSlots := s.cpuSlots ++ [i] }

/-! ### Single operations -/

/-- `write_word`. -/
def writeWord (p : ℕ) (value : Testword arch) : TestM arch Unit := modify fun s => s.set p value

/-- `read_word`. -/
def readWord (env : TestEnv arch) (p : ℕ) : TestM arch (Testword arch) := do
  let s ← get
  pure (env.readBack p (s.store p))

/-- `data_error`. -/
def dataError (p : ℕ) (good bad : Testword arch) (useForBadram : Bool) : TestM arch Unit :=
  modify fun s => s.record (.dataError p good bad useForBadram)

/-- The lines that read a word and report it if it is not as expected. -/
def checkWord (env : TestEnv arch) (p : ℕ) (expect : Testword arch) (useForBadram : Bool) :
    TestM arch Unit := do
  modify fun s => s.record (.check p expect)
  let actual ← readWord env p
  if actual ≠ expect then dataError p expect actual useForBadram else pure ()

/-- `flush_caches`. -/
def flushCaches (env : TestEnv arch) : TestM arch Unit :=
  if 0 ≤ env.myCpu then modify fun s => s.record .flush else pure ()

/-- `do_tick`, followed by `BAILOUT`. -/
def doTick (env : TestEnv arch) : TestM arch Unit := do
  modify TestState.doTick
  let s ← get
  if env.bail s.doTicks = true then throw .bailout else pure ()

/-- The loop of `SKIP_RANGE`. -/
def skipTicks (env : TestEnv arch) : ℕ → TestM arch Unit
  | 0 => pure ()
  | n + 1 => do
      doTick env
      skipTicks env n

/-- `SKIP_RANGE`, up to its `continue`. -/
def skipRange (env : TestEnv arch) (numTicks : ℕ) : TestM arch Unit :=
  if 0 ≤ env.myCpu then skipTicks env numTicks else pure ()

/-- An access to the element of `test_addr`, or of another such array, at an index. -/
def useCpuSlot (i : ℤ) : TestM arch Unit := modify fun s => s.useSlot i

/-- How `calculate_chunk` looks into its tables: only if more than one CPU is active, and never at a
negative index. -/
def useChunkTables (env : TestEnv arch) : TestM arch Unit :=
  if env.cfg.numActiveCpus = 1 then pure () else useCpuSlot (if env.myCpu < 0 then 0 else env.myCpu)

/-- `calculate_chunk` for `my_cpu`. -/
def chunkOf (env : TestEnv arch) (chunkAlign : ℕ) (seg : VmSegment) : TestM arch Chunk := do
  useChunkTables env
  match calculateChunk arch env.cfg env.myCpu seg chunkAlign with
  | some c => pure c
  | none => throw .divideError

/-! ### Blocks -/

/-- The body of the loop over the blocks, between the computation of the end `pe` of the block and
the loop condition. -/
def oneBlock (env : TestEnv arch) (block : ℕ → β → TestM arch β) (pe : ℕ) (b : β) :
    TestM arch β := do
  modify TestState.countTick
  if env.myCpu < 0 then pure b
  else
    useCpuSlot env.myCpu
    let b ← block pe b
    doTick env
    pure b

/-- The loop over the blocks of a chunk that ends at `stop`, upwards from `pe`. -/
def blocksUp (env : TestEnv arch) (stop : ℕ) (block : ℕ → β → TestM arch β) (pe : ℕ) (b : β) :
    TestM arch β :=
  if _ : pe + env.spinSize ≤ stop then do
    let b ← oneBlock env block (pe + (env.spinSize - 1)) b
    blocksUp env stop block (pe + (env.spinSize - 1) + 1) b
  else oneBlock env block stop b
termination_by stop - pe
decreasing_by have := env.spinSize_pos; omega

/-- The loop over the blocks of a chunk that begins at `start`, downwards from `ps`. A null pointer
ends it. -/
def blocksDown (env : TestEnv arch) (start : ℕ) (block : ℕ → β → TestM arch β) (ps : ℕ) (b : β) :
    TestM arch β :=
  if _ : start + env.spinSize ≤ ps then do
    let b ← oneBlock env block (ps - (env.spinSize - 1)) b
    if ps - (env.spinSize - 1) - 1 ≠ 0 then
      blocksDown env start block (ps - (env.spinSize - 1) - 1) b
    else pure b
  else oneBlock env block start b
termination_by ps
decreasing_by have := env.spinSize_pos; omega

/-! ### Sweeps -/

/-- The loop body over the segments, upwards. The local variables of a block are the pointer `p`
and what is carried from one segment to the next. -/
def segmentUp (env : TestEnv arch) (chunkAlign : ℕ) (block : ℕ → ℕ × α → TestM arch (ℕ × α))
    (a : α) (seg : VmSegment) : TestM arch α := do
  let c ← chunkOf env chunkAlign seg
  if c.stop < c.start then do
    skipRange env 1
    pure a
  else
    let start := c.start / arch.wordBytes
    let stop := c.stop / arch.wordBytes
    let r ← blocksUp env stop block start (start, a)
    pure r.2

/-- The loop body over the segments, downwards. -/
def segmentDown (env : TestEnv arch) (chunkAlign : ℕ) (block : ℕ → ℕ × α → TestM arch (ℕ × α))
    (a : α) (seg : VmSegment) : TestM arch α := do
  let c ← chunkOf env chunkAlign seg
  if c.stop < c.start then do
    skipRange env 1
    pure a
  else
    let start := c.start / arch.wordBytes
    let stop := c.stop / arch.wordBytes
    let r ← blocksDown env start block stop (stop, a)
    pure r.2

/-- A sweep over all chunks, upwards, with a body for each word. -/
def sweepUp (env : TestEnv arch) (chunkAlign : ℕ) (body : ℕ → α → TestM arch α) (a : α) :
    TestM arch α :=
  env.vmMap.foldlM (segmentUp env chunkAlign fun pe r => doWhileUp body r.1 pe r.2) a

/-- A sweep over all chunks, downwards, with a body for each word. -/
def sweepDown (env : TestEnv arch) (chunkAlign : ℕ) (body : ℕ → α → TestM arch α) (a : α) :
    TestM arch α :=
  env.vmMap.reverse.foldlM (segmentDown env chunkAlign fun ps r => doWhileDown body r.1 ps r.2) a

end Memtest
