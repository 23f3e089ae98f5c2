import Memtest.Windows.Vmem
import Mathlib.Algebra.Group.Nat.Defs
import Mathlib.Logic.Function.Basic

/-!
# Sharing a segment among the CPUs (`calculate_chunk` in `tests/test_helper.c`)

Each active CPU tests one chunk of a segment. With NUMA only the CPUs of the segment's own
proximity domain take part. `global_init` in `app/main.c` numbers the enabled CPUs: with NUMA they
are counted for each proximity domain by `smp_alloc_cpu_in_proximity_domain` (`system/smp.h`).

Pointers are byte addresses, and pointer arithmetic wraps at the width of the build.
-/

namespace Memtest

/-- `round_down`. -/
def roundDown (arch : Arch) (value alignSize : ℕ) : ℕ :=
  (BitVec.ofNat arch.bits value &&&
    ~~~(BitVec.ofNat arch.bits alignSize - .ofNat arch.bits 1)).toNat

/-- A chunk: the addresses of its first and its last word. -/
structure Chunk where
  start : ℕ
  stop : ℕ
  deriving DecidableEq, Repr

/-- What `calculate_chunk` reads besides the segment. -/
structure ChunkConfig where
  numActiveCpus : ℕ
  enableNuma : Bool
  numAvailableCpus : ℕ
  cpuNumToProximityDomainIdx : ℕ → ℕ
  chunkIndex : ℕ → ℕ
  usedCpusInProximityDomain : ℕ → ℕ

/-- `smp_get_proximity_domain_idx`. -/
def smpGetProximityDomainIdx (numAvailableCpus : ℕ) (cpuNumToProximityDomainIdx : ℕ → ℕ)
    (cpuNum : ℕ) : ℕ :=
  if numAvailableCpus > 1 then cpuNumToProximityDomainIdx cpuNum else 0

/-- `smp_get_proximity_domain_idx` of a CPU. -/
def ChunkConfig.domainOf (cfg : ChunkConfig) (cpu : ℕ) : ℕ :=
  smpGetProximityDomainIdx cfg.numAvailableCpus cfg.cpuNumToProximityDomainIdx cpu

/-- The code both branches of `calculate_chunk` have in common: one of `divisor` chunks. The
result is `none` for a division by zero. A segment may be empty, but it does not end further before
its start. -/
def divideSegment (arch : Arch) (seg : VmSegment) (chunkAlign divisor index : ℕ) : Option Chunk :=
  if divisor = 0 then none
  else
    let segmentSize := (seg.stop + arch.wordBytes - seg.start) / arch.wordBytes * arch.wordBytes
    let chunkSize := roundDown arch (segmentSize / divisor) chunkAlign
    let start := (seg.start + chunkSize * index) % 2 ^ arch.bits
    let stop := (start + chunkSize + (2 ^ arch.bits - arch.wordBytes)) % 2 ^ arch.bits
    some ⟨start, if stop > seg.stop then seg.stop else stop⟩

/-- `calculate_chunk`. With one CPU running the chunk is the whole segment. With NUMA a segment is
divided among the CPUs of its own proximity domain, and the others get an empty chunk, whose end
is before its start. A negative number stands for a dummy run and counts as the first CPU. -/
def calculateChunk (arch : Arch) (cfg : ChunkConfig) (myCpu : ℤ) (seg : VmSegment)
    (chunkAlign : ℕ) : Option Chunk :=
  let myCpu := if myCpu < 0 then 0 else myCpu.toNat
  -- with only one CPU running, it tests the whole segment
  if cfg.numActiveCpus = 1 then some ⟨seg.start, seg.stop⟩
  else if cfg.enableNuma then
    let proximityDomainIdx := cfg.domainOf myCpu
    if proximityDomainIdx = seg.proximityDomainIdx then
      divideSegment arch seg chunkAlign (cfg.usedCpusInProximityDomain proximityDomainIdx)
        (cfg.chunkIndex myCpu)
    else some ⟨1, 0⟩
  else divideSegment arch seg chunkAlign cfg.numActiveCpus (cfg.chunkIndex myCpu)

/-! ### Numbering the CPUs -/

/-- The counters of the loop in `global_init`. -/
structure CpuCounters where
  chunkIndex : ℕ → ℕ
  usedCpusInProximityDomain : ℕ → ℕ
  numEnabledCpus : ℕ

/-- `smp_alloc_cpu_in_proximity_domain`, for CPU `i`. -/
def smpAllocCpuInProximityDomain (i proximityDomainIdx : ℕ) (s : CpuCounters) : CpuCounters :=
  { s with
    chunkIndex := Function.update s.chunkIndex i (s.usedCpusInProximityDomain proximityDomainIdx)
    usedCpusInProximityDomain := Function.update s.usedCpusInProximityDomain proximityDomainIdx
      (s.usedCpusInProximityDomain proximityDomainIdx + 1) }

/-- The loop body, for an enabled CPU. -/
def countCpu (enableNuma : Bool) (domainOf : ℕ → ℕ) (i : ℕ) (s : CpuCounters) : CpuCounters :=
  let s := if enableNuma then smpAllocCpuInProximityDomain i (domainOf i) s
    else { s with chunkIndex := Function.update s.chunkIndex i s.numEnabledCpus }
  { s with numEnabledCpus := s.numEnabledCpus + 1 }

/-- The loop over the CPUs in `global_init`, from counters of zero. `enabled i` stands for
`cpu_state[i] == CPU_STATE_ENABLED`. -/
def countCpus (enableNuma : Bool) (domainOf : ℕ → ℕ) (enabled : ℕ → Bool) : ℕ → CpuCounters
  | 0 => ⟨fun _ => 0, fun _ => 0, 0⟩
  | n + 1 =>
      let s := countCpus enableNuma domainOf enabled n
      if enabled n then countCpu enableNuma domainOf n s else s

/-- The configuration for a test that runs on all enabled CPUs. -/
def parallelConfig (enableNuma : Bool) (numAvailableCpus : ℕ)
    (cpuNumToProximityDomainIdx : ℕ → ℕ) (enabled : ℕ → Bool) : ChunkConfig :=
  let s := countCpus enableNuma
    (smpGetProximityDomainIdx numAvailableCpus cpuNumToProximityDomainIdx) enabled
    numAvailableCpus
  { numActiveCpus := s.numEnabledCpus
    enableNuma := enableNuma
    numAvailableCpus := numAvailableCpus
    cpuNumToProximityDomainIdx := cpuNumToProximityDomainIdx
    chunkIndex := s.chunkIndex
    usedCpusInProximityDomain := s.usedCpusInProximityDomain }

end Memtest
