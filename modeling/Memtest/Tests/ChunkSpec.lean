import Memtest.Tests.Chunk
import Mathlib.Data.Nat.Count
import Mathlib.Data.Set.Card
import Mathlib.Data.Set.Function
import Mathlib.Order.CompletePartialOrder

/-!
# The chunks partition the segment

The size of a chunk is the size of the segment divided by the number of CPUs, rounded down. So the
chunk with index `i` starts `i` chunk sizes above the segment, consecutive chunks meet, and less
than one alignment unit for each CPU is left over at the top. A chunk of size zero ends one word
below its start, which is why a segment at address 0 is different: there the end wraps to the top
of the address space, and the clamp turns it into the end of the segment.
-/

namespace Memtest

/-- The bytes of the words of a chunk; there are none if it ends below its start. -/
def Chunk.bytes (arch : Arch) (c : Chunk) : Set ℕ :=
  {a | c.start ≤ c.stop ∧ c.start ≤ a ∧ a < c.stop + arch.wordBytes}

/-- The chunks of a group of CPUs, numbered from 0 to `n - 1`, partition a segment up to less than
`n` alignment units at its top. A chunk is a range of bytes from its first word to the end of its
last one; `contiguous` says that consecutive chunks meet, and the rest that they begin at the
bottom of the segment and which part of its top they leave out. -/
structure IsChunkPartition (arch : Arch) (chunkAlign : ℕ) (seg : VmSegment) (cpus : Set ℕ)
    (n : ℕ) (index : ℕ → ℕ) (chunk : ℕ → Chunk) : Prop where
  aligned : ∀ cpu ∈ cpus, chunkAlign ∣ (chunk cpu).start
  contained : ∀ cpu ∈ cpus, seg.start ≤ (chunk cpu).start ∧ (chunk cpu).stop ≤ seg.stop
  disjoint : ∀ cpu ∈ cpus, ∀ cpu' ∈ cpus, cpu ≠ cpu' →
    Disjoint ((chunk cpu).bytes arch) ((chunk cpu').bytes arch)
  first : ∀ cpu ∈ cpus, index cpu = 0 → (chunk cpu).start = seg.start
  contiguous : ∀ cpu ∈ cpus, ∀ cpu' ∈ cpus, index cpu' = index cpu + 1 →
    (chunk cpu').start = (chunk cpu).stop + arch.wordBytes
  uncovered : ∃ top, (∀ a, (∃ cpu ∈ cpus, a ∈ (chunk cpu).bytes arch) ↔ seg.start ≤ a ∧ a < top) ∧
    top ≤ seg.stop + arch.wordBytes ∧ seg.stop + arch.wordBytes < top + n * chunkAlign

/-- A segment of whole words inside the address space that does not start at address 0. `run_test`
moves the start of the lowest one to `0x500` at least. The end is the address of the last word,
and there is room for this word below the top of the address space. -/
structure SegmentOk (arch : Arch) (seg : VmSegment) : Prop where
  start_pos : 0 < seg.start
  start_le : seg.start ≤ seg.stop
  start_dvd : arch.wordBytes ∣ seg.start
  stop_dvd : arch.wordBytes ∣ seg.stop
  lt : seg.stop + arch.wordBytes ≤ 2 ^ arch.bits

/-! ### Rounding down -/

theorem roundDown_eq {arch : Arch} {value k : ℕ} (hvalue : value < 2 ^ arch.bits)
    (hk : k < arch.bits) : roundDown arch value (2 ^ k) = value / 2 ^ k * 2 ^ k := by
  have hpow : 2 ^ k < 2 ^ arch.bits := Nat.pow_lt_pow_right (by decide) hk
  have hmask : BitVec.ofNat arch.bits (2 ^ k) - BitVec.ofNat arch.bits 1 =
      BitVec.ofNat arch.bits (2 ^ k - 1) := by
    have hpos := Nat.two_pow_pos k
    have hbits := arch.bits_pos
    have hone : 1 < 2 ^ arch.bits := Nat.one_lt_two_pow hbits.ne'
    refine BitVec.eq_of_toNat_eq ?_
    rw [BitVec.toNat_sub, BitVec.toNat_ofNat, BitVec.toNat_ofNat, BitVec.toNat_ofNat,
      Nat.mod_eq_of_lt hpow, Nat.mod_eq_of_lt hone, Nat.mod_eq_of_lt (by omega : 2 ^ k - 1 < _),
      show 2 ^ arch.bits - 1 + 2 ^ k = 2 ^ k - 1 + 2 ^ arch.bits by omega, Nat.add_mod_right,
      Nat.mod_eq_of_lt (by omega)]
  refine Nat.eq_of_testBit_eq fun i => ?_
  rw [roundDown, hmask, BitVec.testBit_toNat, BitVec.getLsbD_and, BitVec.getLsbD_not,
    BitVec.getLsbD_ofNat, BitVec.getLsbD_ofNat, Nat.testBit_two_pow_sub_one,
    Nat.testBit_mul_two_pow, Nat.testBit_div_two_pow]
  by_cases hi : i < arch.bits
  · by_cases hik : i < k
    · simp [hi, hik]
    · simp [hi, hik, Nat.sub_add_cancel (Nat.le_of_not_lt hik), Nat.le_of_not_lt hik]
  · have hbit : value.testBit i = false :=
      Nat.testBit_lt_two_pow (hvalue.trans_le (Nat.pow_le_pow_right (by decide) (by omega)))
    by_cases hik : k ≤ i
    · simp [hi, Nat.sub_add_cancel hik, hbit]
    · omega

/-! ### One chunk -/

section

variable {arch : Arch} {seg : VmSegment} {chunkAlign divisor index : ℕ}

/-- The size of a segment in bytes. -/
def segmentSize (arch : Arch) (seg : VmSegment) : ℕ := seg.stop + arch.wordBytes - seg.start

/-- The size of a chunk. -/
def chunkSize (arch : Arch) (seg : VmSegment) (chunkAlign divisor : ℕ) : ℕ :=
  segmentSize arch seg / divisor / chunkAlign * chunkAlign

/-- What the callers of `calculate_chunk` guarantee about `chunk_align`: it is a power of two and
a multiple of the size of a word. All of them pass the size of a word, of a vector or of a block
of the block move, and the code rounds the size of a chunk down with a mask, which only a power of
two makes right. -/
structure AlignOk (arch : Arch) (chunkAlign : ℕ) : Prop where
  exists_pow : ∃ k, k < arch.bits ∧ chunkAlign = 2 ^ k
  word_dvd : arch.wordBytes ∣ chunkAlign

theorem chunkSize_mul_le :
    chunkSize arch seg chunkAlign divisor * divisor ≤ segmentSize arch seg :=
  (Nat.mul_le_mul_right _ (Nat.div_mul_le_self _ _)).trans (Nat.div_mul_le_self _ _)

theorem segmentSize_lt (hdiv : 0 < divisor) (halign : 0 < chunkAlign) :
    segmentSize arch seg < chunkSize arch seg chunkAlign divisor * divisor +
      divisor * chunkAlign := by
  have h1 := Nat.lt_div_mul_add (a := segmentSize arch seg) hdiv
  have h2 := Nat.lt_div_mul_add (a := segmentSize arch seg / divisor) halign
  have h3 : segmentSize arch seg / divisor + 1 ≤
      chunkSize arch seg chunkAlign divisor + chunkAlign := by
    rw [chunkSize]
    omega
  calc segmentSize arch seg < (segmentSize arch seg / divisor + 1) * divisor := by
        rw [Nat.add_mul, Nat.one_mul]
        exact h1
    _ ≤ (chunkSize arch seg chunkAlign divisor + chunkAlign) * divisor :=
        Nat.mul_le_mul_right _ h3
    _ = _ := by rw [Nat.add_mul, Nat.mul_comm chunkAlign]

/-- **One chunk.** No addition wraps, and the clamp changes nothing. -/
theorem divideSegment_eq (hseg : SegmentOk arch seg) (halign : AlignOk arch chunkAlign)
    (hindex : index < divisor) :
    divideSegment arch seg chunkAlign divisor index =
      some ⟨seg.start + chunkSize arch seg chunkAlign divisor * index,
        seg.start + chunkSize arch seg chunkAlign divisor * (index + 1) - arch.wordBytes⟩ := by
  have hdiv : 0 < divisor := by omega
  have hword := arch.wordBytes_pos
  have hle := hseg.start_le
  have hlt := hseg.lt
  -- the pointer difference times the word size is the size in bytes
  have hsize : (seg.stop + arch.wordBytes - seg.start) / arch.wordBytes * arch.wordBytes =
      segmentSize arch seg :=
    Nat.div_mul_cancel (Nat.dvd_sub (Nat.dvd_add hseg.stop_dvd (Nat.dvd_refl _)) hseg.start_dvd)
  obtain ⟨k, hk, hpow⟩ := halign.exists_pow
  have hsegsize : segmentSize arch seg ≤ 2 ^ arch.bits - seg.start := by
    rw [segmentSize]
    omega
  have hround : roundDown arch (segmentSize arch seg / divisor) chunkAlign =
      chunkSize arch seg chunkAlign divisor := by
    rw [hpow, roundDown_eq ?_ hk, chunkSize]
    have := Nat.div_le_self (segmentSize arch seg) divisor
    have := hseg.start_pos
    omega
  have hall : chunkSize arch seg chunkAlign divisor * divisor ≤ segmentSize arch seg :=
    chunkSize_mul_le
  set size := chunkSize arch seg chunkAlign divisor
  have hnext : size * (index + 1) ≤ segmentSize arch seg :=
    (Nat.mul_le_mul_left _ hindex).trans hall
  have hsucc : size * (index + 1) = size * index + size := Nat.mul_succ _ _
  have hstartword : arch.wordBytes ≤ seg.start := Nat.le_of_dvd hseg.start_pos hseg.start_dvd
  rw [segmentSize, hsucc] at hnext
  have hstart : (seg.start + size * index) % 2 ^ arch.bits = seg.start + size * index := by
    refine Nat.mod_eq_of_lt ?_
    obtain hzero | hpos := Nat.eq_zero_or_pos size
    · rw [hzero, Nat.zero_mul]
      omega
    · omega
  have hstop : (seg.start + size * index + size + (2 ^ arch.bits - arch.wordBytes)) %
      2 ^ arch.bits = seg.start + size * (index + 1) - arch.wordBytes := by
    rw [hsucc, show seg.start + size * index + size + (2 ^ arch.bits - arch.wordBytes) =
      seg.start + (size * index + size) - arch.wordBytes + 2 ^ arch.bits by omega,
      Nat.add_mod_right]
    exact Nat.mod_eq_of_lt (by omega)
  rw [divideSegment, if_neg hdiv.ne']
  dsimp only
  rw [hsize, hround, hstart, hstop, if_neg (by rw [hsucc]; omega)]

/-- The chunk with a given index. -/
def chunkAt (arch : Arch) (seg : VmSegment) (chunkAlign divisor index : ℕ) : Chunk where
  start := seg.start + chunkSize arch seg chunkAlign divisor * index
  stop := seg.start + chunkSize arch seg chunkAlign divisor * (index + 1) - arch.wordBytes

theorem mem_bytes_chunkAt (hseg : SegmentOk arch seg) (halign : AlignOk arch chunkAlign)
    {a : ℕ} :
    a ∈ (chunkAt arch seg chunkAlign divisor index).bytes arch ↔
      seg.start + chunkSize arch seg chunkAlign divisor * index ≤ a ∧
        a < seg.start + chunkSize arch seg chunkAlign divisor * (index + 1) := by
  have hword := arch.wordBytes_pos
  have hstartword : arch.wordBytes ≤ seg.start := Nat.le_of_dvd hseg.start_pos hseg.start_dvd
  have hdvd : arch.wordBytes ∣ chunkSize arch seg chunkAlign divisor :=
    Nat.dvd_trans halign.word_dvd (Nat.dvd_mul_left _ _)
  simp only [Chunk.bytes, chunkAt, Set.mem_ofPred_eq, Nat.mul_succ]
  obtain hzero | hpos := Nat.eq_zero_or_pos (chunkSize arch seg chunkAlign divisor)
  · simp only [hzero, Nat.zero_mul]
    omega
  · have := Nat.le_of_dvd hpos hdvd
    omega

/-- The chunks of a group of CPUs that are numbered without gaps partition the segment. -/
theorem isChunkPartition_chunkAt (hseg : SegmentOk arch seg)
    (halign : AlignOk arch chunkAlign) (hdvd : chunkAlign ∣ seg.start) {cpus : Set ℕ} {n : ℕ}
    {index : ℕ → ℕ} (hn : 0 < n)
    (hindex : Set.BijOn index cpus (Set.Iio n)) :
    IsChunkPartition arch chunkAlign seg cpus n index
      fun cpu => chunkAt arch seg chunkAlign n (index cpu) := by
  obtain ⟨k, -, hpow⟩ := halign.exists_pow
  have halignpos : 0 < chunkAlign := by rw [hpow]; exact Nat.two_pow_pos k
  have hword := arch.wordBytes_pos
  have hstartword : arch.wordBytes ≤ seg.start := Nat.le_of_dvd hseg.start_pos hseg.start_dvd
  have hall : chunkSize arch seg chunkAlign n * n ≤ segmentSize arch seg := chunkSize_mul_le
  have hrest : segmentSize arch seg < chunkSize arch seg chunkAlign n * n + n * chunkAlign :=
    segmentSize_lt hn halignpos
  have hle := hseg.start_le
  set size := chunkSize arch seg chunkAlign n with hsize
  have hmul : ∀ {i j : ℕ}, i ≤ j → size * i ≤ size * j := fun h => Nat.mul_le_mul_left _ h
  rw [segmentSize] at hall hrest
  refine ⟨fun cpu _ => ?_, fun cpu hcpu => ?_, fun cpu hcpu cpu' hcpu' hne => ?_,
    fun cpu _ h0 => ?_, fun cpu _ cpu' _ hsucc => ?_, seg.start + size * n, fun a => ?_,
    by omega, by omega⟩
  · exact (Nat.dvd_add_right hdvd).mpr
      (Nat.dvd_mul_right_of_dvd (Nat.dvd_mul_left chunkAlign _) _)
  · have h := hmul (show index cpu + 1 ≤ n from hindex.mapsTo hcpu)
    refine ⟨Nat.le_add_right _ _, ?_⟩
    dsimp only [chunkAt]
    rw [← hsize]
    omega
  · -- two CPUs have different indices, and chunks with different indices do not meet
    have hidx : index cpu ≠ index cpu' := fun h => hne (hindex.injOn hcpu hcpu' h)
    rw [Set.disjoint_left]
    intro a h h'
    rw [mem_bytes_chunkAt hseg halign, ← hsize] at h h'
    obtain hlt | hlt := Nat.lt_or_gt_of_ne hidx
    · have := hmul (show index cpu + 1 ≤ index cpu' from hlt)
      omega
    · have := hmul (show index cpu' + 1 ≤ index cpu from hlt)
      omega
  · dsimp only [chunkAt]
    rw [h0, Nat.mul_zero, Nat.add_zero]
  · dsimp only [chunkAt]
    rw [hsucc, ← hsize]
    omega
  · constructor
    · rintro ⟨cpu, hcpu, ha⟩
      rw [mem_bytes_chunkAt hseg halign, ← hsize] at ha
      have := hmul (show index cpu + 1 ≤ n from hindex.mapsTo hcpu)
      exact ⟨by omega, by omega⟩
    · rintro ⟨hlo, hhi⟩
      have hpos : 0 < size := by
        by_contra hzero
        rw [Nat.eq_zero_of_not_pos hzero, Nat.zero_mul] at hhi
        omega
      have hi : (a - seg.start) / size < n := Nat.div_lt_of_lt_mul (by omega)
      obtain ⟨cpu, hcpu, hidx⟩ := hindex.surjOn hi
      refine ⟨cpu, hcpu, ?_⟩
      rw [mem_bytes_chunkAt hseg halign, ← hsize, hidx]
      have h1 := Nat.mul_div_le (a - seg.start) size
      have h2 := Nat.lt_mul_div_succ (a - seg.start) hpos
      exact ⟨by omega, by omega⟩

end

/-! ### Numbering the CPUs -/

/-- Counting numbers the members of a set below `n` without gaps. -/
theorem bijOn_count (p : ℕ → Prop) [DecidablePred p] (n : ℕ) :
    Set.BijOn (Nat.count p) {i | i < n ∧ p i} (Set.Iio (Nat.count p n)) := by
  refine ⟨fun i hi => Nat.count_strict_mono hi.2 hi.1,
    fun i hi j hj heq => Nat.count_injective hi.2 hj.2 heq, ?_⟩
  induction n with
  | zero => exact fun k hk => absurd hk (by simp)
  | succ n ih =>
    intro k hk
    rw [Set.mem_Iio, Nat.count_succ] at hk
    by_cases hlt : k < Nat.count p n
    · obtain ⟨i, ⟨hi, hp⟩, hik⟩ := ih hlt
      exact ⟨i, ⟨by omega, hp⟩, hik⟩
    · by_cases hp : p n
      · rw [if_pos hp] at hk
        exact ⟨n, ⟨by omega, hp⟩, by omega⟩
      · rw [if_neg hp] at hk
        omega

section

variable {enableNuma : Bool} {domainOf : ℕ → ℕ} {enabled : ℕ → Bool}

/-- The group a CPU is numbered in: the enabled CPUs, with NUMA those of its domain. -/
def InGroup (enableNuma : Bool) (domainOf : ℕ → ℕ) (enabled : ℕ → Bool) (d i : ℕ) : Prop :=
  enabled i = true ∧ (enableNuma = true → domainOf i = d)

instance : DecidablePred (InGroup enableNuma domainOf enabled d) :=
  fun _ => inferInstanceAs (Decidable (_ ∧ (_ → _)))

/-- The state of the loop: each CPU's index is the number of CPUs of its group before it. -/
theorem countCpus_spec (enableNuma : Bool) (domainOf : ℕ → ℕ) (enabled : ℕ → Bool) (n : ℕ) :
    (countCpus enableNuma domainOf enabled n).numEnabledCpus =
        Nat.count (fun i => enabled i = true) n ∧
      (enableNuma = true → ∀ d,
        (countCpus enableNuma domainOf enabled n).usedCpusInProximityDomain d =
          Nat.count (InGroup enableNuma domainOf enabled d) n) ∧
      ∀ i < n, enabled i = true → (countCpus enableNuma domainOf enabled n).chunkIndex i =
        Nat.count (InGroup enableNuma domainOf enabled (domainOf i)) i := by
  induction n with
  | zero => exact ⟨rfl, fun _ _ => rfl, fun i hi => absurd hi (Nat.not_lt_zero i)⟩
  | succ n ih =>
    obtain ⟨hnum, hused, hidx⟩ := ih
    rw [countCpus]
    by_cases hn : enabled n = true
    · rw [if_pos hn]
      -- the index of CPU `n` is the number of CPUs counted so far
      have hlast : (countCpu enableNuma domainOf n
          (countCpus enableNuma domainOf enabled n)).chunkIndex n =
          Nat.count (InGroup enableNuma domainOf enabled (domainOf n)) n := by
        cases enableNuma with
        | false =>
          have hgroup : InGroup false domainOf enabled (domainOf n) =
              fun i => enabled i = true := by
            funext i
            simp [InGroup]
          simp [countCpu, hnum, hgroup]
        | true => simp [countCpu, smpAllocCpuInProximityDomain, hused]
      refine ⟨?_, fun hnuma d => ?_, fun i hi hen => ?_⟩
      · rw [Nat.count_succ, if_pos hn, countCpu]
        cases enableNuma <;> simp [smpAllocCpuInProximityDomain, hnum]
      · subst hnuma
        have hgroup : InGroup true domainOf enabled d n ↔ d = domainOf n := by
          simp [InGroup, hn, eq_comm]
        rw [Nat.count_succ]
        by_cases hd : d = domainOf n
        · rw [if_pos (hgroup.mpr hd), hd]
          simp [countCpu, smpAllocCpuInProximityDomain, hused]
        · rw [if_neg (hgroup.not.mpr hd)]
          simp [countCpu, smpAllocCpuInProximityDomain, hused, Function.update_of_ne hd]
      · obtain rfl | hlt := Nat.eq_or_lt_of_le (Nat.le_of_lt_succ hi)
        · exact hlast
        · rw [← hidx i hlt hen]
          cases enableNuma <;>
            simp [countCpu, smpAllocCpuInProximityDomain, Function.update_of_ne hlt.ne]
    · rw [if_neg hn]
      refine ⟨?_, fun hnuma d => ?_, fun i hi hen => ?_⟩
      · rw [Nat.count_succ, if_neg hn, hnum]
        rfl
      · rw [Nat.count_succ, if_neg fun h => hn h.1, hused hnuma]
        rfl
      · obtain rfl | hlt := Nat.eq_or_lt_of_le (Nat.le_of_lt_succ hi)
        · exact absurd hen hn
        · exact hidx i hlt hen

end

section

variable {numAvailableCpus : ℕ} {idx : ℕ → ℕ} {enabled : ℕ → Bool}

/-- The enabled CPUs of a proximity domain. -/
def domainCpus (cfg : ChunkConfig) (enabled : ℕ → Bool) (d : ℕ) : Set ℕ :=
  {cpu | cpu < cfg.numAvailableCpus ∧ enabled cpu = true ∧ cfg.domainOf cpu = d}

/-- With NUMA, `global_init` numbers the enabled CPUs of each domain without gaps. -/
theorem bijOn_chunkIndex_numa (d : ℕ) :
    Set.BijOn (parallelConfig true numAvailableCpus idx enabled).chunkIndex
      (domainCpus (parallelConfig true numAvailableCpus idx enabled) enabled d)
      (Set.Iio
        ((parallelConfig true numAvailableCpus idx enabled).usedCpusInProximityDomain d)) := by
  obtain ⟨-, hused, hidx⟩ := countCpus_spec true
    (smpGetProximityDomainIdx numAvailableCpus idx) enabled numAvailableCpus
  have hbij := bijOn_count
    (InGroup true (smpGetProximityDomainIdx numAvailableCpus idx) enabled d) numAvailableCpus
  rw [← hused rfl d] at hbij
  have hset : {i | i < numAvailableCpus ∧
      InGroup true (smpGetProximityDomainIdx numAvailableCpus idx) enabled d i} =
      domainCpus (parallelConfig true numAvailableCpus idx enabled) enabled d := by
    ext i
    simp [InGroup, domainCpus, parallelConfig, ChunkConfig.domainOf]
  rw [hset] at hbij
  refine hbij.congr fun i hi => ?_
  have hdom : smpGetProximityDomainIdx numAvailableCpus idx i = d := hi.2.2
  have h := hidx i hi.1 hi.2.1
  rw [hdom] at h
  exact h.symm

/-- Without NUMA, it numbers all enabled CPUs without gaps. -/
theorem bijOn_chunkIndex_nonNuma :
    Set.BijOn (parallelConfig false numAvailableCpus idx enabled).chunkIndex
      {cpu | cpu < numAvailableCpus ∧ enabled cpu = true}
      (Set.Iio (parallelConfig false numAvailableCpus idx enabled).numActiveCpus) := by
  obtain ⟨hnum, -, hidx⟩ := countCpus_spec false
    (smpGetProximityDomainIdx numAvailableCpus idx) enabled numAvailableCpus
  have hbij := bijOn_count (fun i => enabled i = true) numAvailableCpus
  rw [← hnum] at hbij
  refine hbij.congr fun i hi => ?_
  have hgroup : InGroup false (smpGetProximityDomainIdx numAvailableCpus idx) enabled
      (smpGetProximityDomainIdx numAvailableCpus idx i) = fun i => enabled i = true := by
    funext j
    simp [InGroup]
  have h := hidx i hi.1 hi.2
  simp only [hgroup] at h
  exact h.symm

end

/-! ### The partition -/

section

variable {arch : Arch} {seg : VmSegment} {chunkAlign : ℕ}

/-- A negative CPU number stands for CPU 0, as `Int.toNat` has it. -/
theorem clampCpu_eq_toNat (myCpu : ℤ) : (if myCpu < 0 then 0 else myCpu.toNat) = myCpu.toNat := by
  split <;> omega

theorem calculateChunk_nonNuma {cfg : ChunkConfig} (hactive : 1 < cfg.numActiveCpus)
    (hnuma : cfg.enableNuma = false) (myCpu : ℤ) :
    calculateChunk arch cfg myCpu seg chunkAlign =
      divideSegment arch seg chunkAlign cfg.numActiveCpus (cfg.chunkIndex myCpu.toNat) := by
  simp only [calculateChunk, clampCpu_eq_toNat]
  rw [if_neg (by omega), if_neg (by simp [hnuma])]

theorem calculateChunk_numa {cfg : ChunkConfig} (hactive : 1 < cfg.numActiveCpus)
    (hnuma : cfg.enableNuma = true) (myCpu : ℤ) :
    calculateChunk arch cfg myCpu seg chunkAlign =
      if cfg.domainOf myCpu.toNat = seg.proximityDomainIdx then
        divideSegment arch seg chunkAlign
          (cfg.usedCpusInProximityDomain (cfg.domainOf myCpu.toNat)) (cfg.chunkIndex myCpu.toNat)
      else some ⟨1, 0⟩ := by
  simp only [calculateChunk, clampCpu_eq_toNat]
  rw [if_neg (by omega), if_pos hnuma]

/-- **Chunk partition.** On a segment of whole words that does not start at address 0, and for an
alignment of at least a word, the chunks of the active CPUs partition the segment, however the
CPUs are numbered. With NUMA, and the CPUs numbered by `global_init`, so do the chunks of the CPUs
in the segment's proximity domain; all other CPUs get an empty chunk, and if an enabled CPU is in
the domain no call divides by zero.

The numbering is any bijection of the CPUs to their chunk indices in the first part. In the second
one it is the one `global_init` computes from the proximity domains and the enabled CPUs, because
there the number of CPUs in a domain has to agree with the highest index in it. A segment may have
a domain in which no CPU is enabled; nobody tests it. -/
theorem calculateChunk_isChunkPartition (hseg : SegmentOk arch seg)
    (halign : AlignOk arch chunkAlign) (hdvd : chunkAlign ∣ seg.start) :
    (∀ (cfg : ChunkConfig) (cpus : Set ℕ), cfg.enableNuma = false → 1 < cfg.numActiveCpus →
      Set.BijOn cfg.chunkIndex cpus (Set.Iio cfg.numActiveCpus) →
      ∃ chunk : ℕ → Chunk,
        (∀ cpu ∈ cpus, calculateChunk arch cfg cpu seg chunkAlign = some (chunk cpu)) ∧
        IsChunkPartition arch chunkAlign seg cpus cfg.numActiveCpus cfg.chunkIndex chunk) ∧
    (∀ (numAvailableCpus : ℕ) (idx : ℕ → ℕ) (enabled : ℕ → Bool),
      let cfg := parallelConfig true numAvailableCpus idx enabled
      let cpus := domainCpus cfg enabled seg.proximityDomainIdx
      1 < cfg.numActiveCpus →
      (cpus.Nonempty → ∃ chunk : ℕ → Chunk,
        (∀ cpu ∈ cpus, calculateChunk arch cfg cpu seg chunkAlign = some (chunk cpu)) ∧
        IsChunkPartition arch chunkAlign seg cpus
          (cfg.usedCpusInProximityDomain seg.proximityDomainIdx) cfg.chunkIndex chunk) ∧
      (∀ cpu : ℕ, cfg.domainOf cpu ≠ seg.proximityDomainIdx →
        ∃ c, calculateChunk arch cfg cpu seg chunkAlign = some c ∧ c.stop < c.start) ∧
      (cpus.Nonempty → ∀ myCpu : ℤ, calculateChunk arch cfg myCpu seg chunkAlign ≠ none)) := by
  constructor
  · intro cfg cpus hnuma hactive hbij
    refine ⟨_, fun cpu hcpu => ?_, isChunkPartition_chunkAt hseg halign hdvd (by omega) hbij⟩
    rw [calculateChunk_nonNuma hactive hnuma, Int.toNat_natCast]
    exact divideSegment_eq hseg halign (hbij.mapsTo hcpu)
  · intro numAvailableCpus idx enabled cfg cpus hactive
    have hnuma : cfg.enableNuma = true := rfl
    have hbij : Set.BijOn cfg.chunkIndex cpus _ := bijOn_chunkIndex_numa seg.proximityDomainIdx
    refine ⟨fun hne => ?_, fun cpu hcpu => ?_, fun hne myCpu => ?_⟩
    · obtain ⟨cpu₀, hcpu₀⟩ := hne
      have hpos := Nat.zero_lt_of_lt (hbij.mapsTo hcpu₀)
      refine ⟨_, fun cpu hcpu => ?_, isChunkPartition_chunkAt hseg halign hdvd hpos hbij⟩
      have hdom : cfg.domainOf cpu = seg.proximityDomainIdx := hcpu.2.2
      rw [calculateChunk_numa hactive hnuma, Int.toNat_natCast, if_pos hdom, hdom]
      exact divideSegment_eq hseg halign (hbij.mapsTo hcpu)
    · refine ⟨⟨1, 0⟩, ?_, by decide⟩
      rw [calculateChunk_numa hactive hnuma, Int.toNat_natCast, if_neg hcpu]
    · obtain ⟨cpu₀, hcpu₀⟩ := hne
      have hpos := Nat.zero_lt_of_lt (hbij.mapsTo hcpu₀)
      rw [calculateChunk_numa hactive hnuma]
      split
      · next hdom =>
        rw [hdom, divideSegment, if_neg hpos.ne']
        simp
      · simp

end

/-- The theorem at the segment from 1 MB to 2 MB, for chunks of whole words. -/
theorem calculateChunk_isChunkPartition_megabyte :
    let seg : VmSegment := ⟨0x100, 0x100000, 0x1ffff8, 0⟩
    let cfg : ChunkConfig := ⟨2, false, 2, fun _ => 0, id, fun _ => 0⟩
    ∃ chunk : ℕ → Chunk,
      (∀ cpu ∈ Set.Iio 2, calculateChunk .b64 cfg (cpu : ℕ) seg 8 = some (chunk cpu)) ∧
      IsChunkPartition .b64 8 seg (Set.Iio 2) 2 id chunk :=
  have hseg : SegmentOk .b64 ⟨0x100, 0x100000, 0x1ffff8, 0⟩ :=
    ⟨by decide, by decide, ⟨0x20000, rfl⟩, ⟨0x3ffff, rfl⟩, by decide⟩
  have halign : AlignOk .b64 8 := ⟨⟨3, by decide, rfl⟩, ⟨1, rfl⟩⟩
  (calculateChunk_isChunkPartition hseg halign ⟨0x20000, rfl⟩).1
    ⟨2, false, 2, fun _ => 0, id, fun _ => 0⟩ (Set.Iio 2) rfl (by decide) (Set.bijOn_id _)

/-- Without the conditions on the segment and on the alignment the chunks need not be a partition.
On a one word segment at address 0 the end of an empty chunk wraps to the top of the address
space and is clamped to the end of the segment, so two CPUs both get the word. With an alignment
of half a word, three CPUs get nothing of a segment of two words. -/
theorem calculateChunk_not_isChunkPartition :
    (¬ ∃ chunk : ℕ → Chunk,
      (∀ cpu ∈ Set.Iio 2, calculateChunk .b64 ⟨2, false, 2, fun _ => 0, id, fun _ => 0⟩
        (cpu : ℕ) ⟨0, 0, 0, 0⟩ 8 = some (chunk cpu)) ∧
      IsChunkPartition .b64 8 ⟨0, 0, 0, 0⟩ (Set.Iio 2) 2 id chunk) ∧
    ¬ ∃ chunk : ℕ → Chunk,
      (∀ cpu ∈ Set.Iio 3, calculateChunk .b64 ⟨3, false, 3, fun _ => 0, id, fun _ => 0⟩
        (cpu : ℕ) ⟨0, 16, 24, 0⟩ 4 = some (chunk cpu)) ∧
      IsChunkPartition .b64 4 ⟨0, 16, 24, 0⟩ (Set.Iio 3) 3 id chunk := by
  constructor
  · rintro ⟨chunk, hchunk, hpart⟩
    have hcalc : ∀ i < 2, calculateChunk .b64 ⟨2, false, 2, fun _ => 0, id, fun _ => 0⟩
        (i : ℕ) ⟨0, 0, 0, 0⟩ 8 = some ⟨0, 0⟩ := by decide +kernel
    have hboth : ∀ i < 2, 0 ∈ (chunk i).bytes .b64 := fun i hi => by
      rw [← Option.some.inj ((hcalc i hi).symm.trans (hchunk i hi))]
      exact ⟨by decide, by decide, by decide⟩
    have hdisj := hpart.disjoint 0 Nat.two_pos 1 Nat.one_lt_two Nat.zero_ne_one
    exact Set.disjoint_left.mp hdisj (hboth 0 Nat.two_pos) (hboth 1 Nat.one_lt_two)
  · rintro ⟨chunk, hchunk, hpart⟩
    obtain ⟨top, htop, -, hrest⟩ := hpart.uncovered
    have hword : Arch.b64.wordBytes = 8 := rfl
    have hcalc : ∀ i < 3, calculateChunk .b64 ⟨3, false, 3, fun _ => 0, id, fun _ => 0⟩
        (i : ℕ) ⟨0, 16, 24, 0⟩ 4 = some ⟨16 + 4 * i, 12 + 4 * i⟩ := by decide +kernel
    -- all three chunks are empty, so the first byte of the segment is left uncovered
    have hnot : ¬ (16 ≤ 16 ∧ 16 < top) := fun h => by
      obtain ⟨cpu, hcpu, hmem⟩ := (htop 16).mpr h
      rw [← Option.some.inj ((hcalc cpu hcpu).symm.trans (hchunk cpu hcpu))] at hmem
      have : 16 + 4 * cpu ≤ 12 + 4 * cpu := hmem.1
      omega
    rw [hword] at hrest
    dsimp only at hrest
    omega

end Memtest
