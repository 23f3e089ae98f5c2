import Memtest.Tests.ChunkSpec
import Memtest.Tests.Sweep
import Mathlib.Data.List.Pairwise

/-!
# The words of the chunks of one CPU

If the segments are disjoint and the CPU has a chunk index below the number of CPUs that share the
segment, its chunks lie in their segments. So a sweep meets no word twice and never the word at
address 0, and no chunk is computed with a division by zero.
-/

namespace Memtest

variable {arch : Arch} {env : TestEnv arch} {chunkAlign : ℕ}

/-- The segments of a `vm_map`. -/
structure SegmentsOk (arch : Arch) (vmMap : List VmSegment) : Prop where
  segment : ∀ seg ∈ vmMap, SegmentOk arch seg
  disjoint : vmMap.Pairwise fun s t => s.stop < t.start ∨ t.stop < s.start

/-- The chunk index of a CPU is below the number of CPUs that share a segment. -/
def ChunkConfig.IndexOk (cfg : ChunkConfig) (myCpu : ℤ) : Prop :=
  cfg.numActiveCpus = 1 ∨
    if cfg.enableNuma = true then
      cfg.chunkIndex myCpu.toNat < cfg.usedCpusInProximityDomain (cfg.domainOf myCpu.toNat)
    else cfg.chunkIndex myCpu.toNat < cfg.numActiveCpus

section

variable {seg : VmSegment} {cfg : ChunkConfig} {myCpu : ℤ}

/-- The chunk is a range of words of the segment: all of it, or a number of alignment units. -/
structure InSegment (arch : Arch) (chunkAlign : ℕ) (seg : VmSegment) (c : Chunk) : Prop where
  start_le : seg.start ≤ c.start
  le_stop : c.stop ≤ seg.stop
  start_dvd : arch.wordBytes ∣ c.start
  stop_dvd : arch.wordBytes ∣ c.stop
  room : c.start = seg.start ∨ c.start + chunkAlign ≤ seg.stop + arch.wordBytes

theorem inSegment_divideSegment (hseg : SegmentOk arch seg) (halign : AlignOk arch chunkAlign)
    {divisor index : ℕ} (hindex : index < divisor) :
    ∃ c, divideSegment arch seg chunkAlign divisor index = some c ∧
      (c.stop < c.start ∨ InSegment arch chunkAlign seg c) := by
  refine ⟨_, divideSegment_eq hseg halign hindex, ?_⟩
  have hdvd : arch.wordBytes ∣ chunkSize arch seg chunkAlign divisor :=
    Nat.dvd_trans halign.word_dvd (Nat.dvd_mul_left _ _)
  have hall : chunkSize arch seg chunkAlign divisor * divisor ≤ segmentSize arch seg :=
    chunkSize_mul_le
  have hnext : chunkSize arch seg chunkAlign divisor * (index + 1) ≤ segmentSize arch seg :=
    (Nat.mul_le_mul_left _ hindex).trans hall
  have hle := hseg.start_le
  have hsucc : chunkSize arch seg chunkAlign divisor * (index + 1) =
      chunkSize arch seg chunkAlign divisor * index + chunkSize arch seg chunkAlign divisor :=
    Nat.mul_succ _ _
  rw [segmentSize] at hnext
  obtain hzero | hpos := Nat.eq_zero_or_pos (chunkSize arch seg chunkAlign divisor)
  · have hword := arch.wordBytes_pos
    have hstart := hseg.start_pos
    left
    dsimp only
    rw [hzero]
    omega
  · have hunit : chunkAlign ≤ chunkSize arch seg chunkAlign divisor :=
      Nat.le_of_dvd hpos (Nat.dvd_mul_left _ _)
    refine .inr ⟨Nat.le_add_right _ _, ?_, ?_, ?_, .inr ?_⟩
    · dsimp only
      omega
    · exact Nat.dvd_add hseg.start_dvd (Nat.dvd_mul_right_of_dvd hdvd _)
    · exact Nat.dvd_sub (Nat.dvd_add hseg.start_dvd (Nat.dvd_mul_right_of_dvd hdvd _))
        (Nat.dvd_refl _)
    · dsimp only
      omega

theorem inSegment_calculateChunk (hseg : SegmentOk arch seg) (halign : AlignOk arch chunkAlign)
    (hindex : cfg.IndexOk myCpu) :
    ∃ c, calculateChunk arch cfg myCpu seg chunkAlign = some c ∧
      (c.stop < c.start ∨ InSegment arch chunkAlign seg c) := by
  by_cases hone : cfg.numActiveCpus = 1
  · refine ⟨⟨seg.start, seg.stop⟩, ?_, .inr ⟨Nat.le_refl _, Nat.le_refl _, hseg.start_dvd,
      hseg.stop_dvd, .inl rfl⟩⟩
    rw [calculateChunk, if_pos hone]
  · have hidx := hindex.resolve_left hone
    simp only [calculateChunk, clampCpu_eq_toNat, if_neg hone]
    by_cases hnuma : cfg.enableNuma = true
    · rw [if_pos hnuma] at hidx ⊢
      split
      · exact inSegment_divideSegment hseg halign hidx
      · exact ⟨⟨1, 0⟩, rfl, .inl (by decide)⟩
    · rw [if_neg hnuma] at hidx ⊢
      exact inSegment_divideSegment hseg halign hidx

/-- A segment that ends right before it starts. -/
structure SegmentEmpty (arch : Arch) (seg : VmSegment) : Prop where
  start_eq : seg.start = seg.stop + arch.wordBytes
  start_lt : seg.start < 2 ^ arch.bits

/-- All of its chunks are empty. -/
theorem calculateChunk_of_empty (chunkAlign : ℕ) (hseg : SegmentEmpty arch seg)
    (hindex : cfg.IndexOk myCpu) :
    ∃ c, calculateChunk arch cfg myCpu seg chunkAlign = some c ∧ c.stop < c.start := by
  have hword := arch.wordBytes_pos
  have hstart := hseg.start_eq
  have hlt := hseg.start_lt
  have hdivide : ∀ {divisor index : ℕ}, index < divisor →
      ∃ c, divideSegment arch seg chunkAlign divisor index = some c ∧ c.stop < c.start := by
    intro divisor index hidx
    have hsize : roundDown arch ((seg.stop + arch.wordBytes - seg.start) / arch.wordBytes *
        arch.wordBytes / divisor) chunkAlign = 0 := by
      rw [← hstart, Nat.sub_self, Nat.zero_div, Nat.zero_mul, Nat.zero_div, roundDown]
      simp
    have hstop : (seg.start + 0 + (2 ^ arch.bits - arch.wordBytes)) % 2 ^ arch.bits =
        seg.stop := by
      rw [show seg.start + 0 + (2 ^ arch.bits - arch.wordBytes) = seg.stop + 2 ^ arch.bits by
        omega, Nat.add_mod_right, Nat.mod_eq_of_lt (by omega)]
    rw [divideSegment, if_neg (by omega)]
    dsimp only
    rw [hsize, Nat.zero_mul, Nat.add_zero, Nat.mod_eq_of_lt hlt]
    rw [Nat.add_zero] at hstop
    rw [Nat.add_zero, hstop, if_neg (lt_irrefl _)]
    exact ⟨_, rfl, by dsimp only; omega⟩
  by_cases hone : cfg.numActiveCpus = 1
  · refine ⟨⟨seg.start, seg.stop⟩, ?_, by dsimp only; omega⟩
    rw [calculateChunk, if_pos hone]
  · have hidx := hindex.resolve_left hone
    simp only [calculateChunk, clampCpu_eq_toNat, if_neg hone]
    by_cases hnuma : cfg.enableNuma = true
    · rw [if_pos hnuma] at hidx ⊢
      split
      · exact hdivide hidx
      · exact ⟨⟨1, 0⟩, rfl, by decide⟩
    · rw [if_neg hnuma] at hidx ⊢
      exact hdivide hidx

end

/-! ### Words -/

section

variable (hsegs : SegmentsOk arch env.vmMap) (halign : AlignOk arch chunkAlign)
  (hindex : env.cfg.IndexOk env.myCpu)

include hsegs halign hindex

theorem mem_segmentWords {seg : VmSegment} (hseg : seg ∈ env.vmMap) {p : ℕ}
    (hp : p ∈ env.segmentWords chunkAlign seg) :
    seg.start ≤ p * arch.wordBytes ∧ p * arch.wordBytes ≤ seg.stop := by
  obtain ⟨c, hc, hor⟩ := inSegment_calculateChunk (hsegs.segment seg hseg) halign hindex
  obtain hlt | hin := hor
  · rw [segmentWords_of_lt hc hlt] at hp
    exact absurd hp List.not_mem_nil
  · by_cases hlt : c.stop < c.start
    · rw [segmentWords_of_lt hc hlt] at hp
      exact absurd hp List.not_mem_nil
    · rw [segmentWords_of_le hc hlt, List.mem_range'_1] at hp
      have h1 : c.start / arch.wordBytes * arch.wordBytes ≤ p * arch.wordBytes :=
        Nat.mul_le_mul_right _ hp.1
      have h2 : p * arch.wordBytes ≤ c.stop / arch.wordBytes * arch.wordBytes :=
        Nat.mul_le_mul_right _ (by omega)
      rw [Nat.div_mul_cancel hin.start_dvd] at h1
      rw [Nat.div_mul_cancel hin.stop_dvd] at h2
      exact ⟨hin.start_le.trans h1, h2.trans hin.le_stop⟩

/-- A word belongs to the chunk of one segment only. -/
theorem eq_of_mem_segmentWords {s t : VmSegment} (hs : s ∈ env.vmMap) (ht : t ∈ env.vmMap) {p : ℕ}
    (hps : p ∈ env.segmentWords chunkAlign s) (hpt : p ∈ env.segmentWords chunkAlign t) :
    s = t := by
  by_contra hne
  have hsymm : Std.Symm fun s t : VmSegment => s.stop < t.start ∨ t.stop < s.start :=
    ⟨fun _ _ hor => hor.symm⟩
  have h := hsegs.disjoint.forall hs ht hne
  have h1 := mem_segmentWords hsegs halign hindex hs hps
  have h2 := mem_segmentWords hsegs halign hindex ht hpt
  omega

/-- A sweep meets no word twice. -/
theorem nodup_words : (env.words chunkAlign).Nodup := by
  rw [TestEnv.words, List.nodup_flatMap]
  constructor
  · intro seg hseg
    rw [TestEnv.segmentWords]
    split
    · rw [Chunk.words]
      split
      · exact List.nodup_nil
      · exact List.nodup_range'
    · exact List.nodup_nil
  · refine List.Pairwise.imp_of_mem ?_ hsegs.disjoint
    intro s t hs ht hdisj
    rw [Function.onFun_apply, List.disjoint_left]
    intro p hps hpt
    have h1 := mem_segmentWords hsegs halign hindex hs hps
    have h2 := mem_segmentWords hsegs halign hindex ht hpt
    omega

/-- The word at address 0 is not tested. -/
theorem zero_notMem_words : 0 ∉ env.words chunkAlign := by
  intro h
  obtain ⟨seg, hseg, hp⟩ := List.mem_flatMap.mp h
  have h1 := mem_segmentWords hsegs halign hindex hseg hp
  have h2 := (hsegs.segment seg hseg).start_pos
  omega

/-- If `bail` is never set, a test does not exit early. -/
theorem not_canExit (hbail : ∀ n, env.bail n = false) (e : Exit) (s : TestState arch) :
    ¬ env.CanExit chunkAlign e s := by
  cases e with
  | bailout =>
    intro h
    rw [TestEnv.CanExit, hbail] at h
    exact Bool.false_ne_true h
  | divideError =>
    rintro ⟨seg, hseg, hnone⟩
    obtain ⟨c, hc, -⟩ := inSegment_calculateChunk (hsegs.segment seg hseg) halign hindex
    rw [hnone] at hc
    exact Option.some_ne_none c hc.symm

end

/-- A single CPU that tests two segments, of 3 words and of 64 KB, in blocks of 4 words. -/
def sampleEnv (readBack : ℕ → Testword .b64 → Testword .b64) : TestEnv .b64 where
  spinSize := 4
  spinSize_pos := by decide
  vmMap := [⟨0x1, 0x1000, 0x1010, 0⟩, ⟨0x10, 0x10000, 0x1fff8, 0⟩]
  cfg := ⟨1, false, 1, fun _ => 0, fun _ => 0, fun _ => 0⟩
  myCpu := 0
  readBack := readBack
  bail := fun _ => false

theorem segmentsOk_sampleEnv (readBack : ℕ → Testword .b64 → Testword .b64) :
    SegmentsOk .b64 (sampleEnv readBack).vmMap where
  segment := by
    simp only [sampleEnv, List.mem_cons, List.not_mem_nil, or_false, forall_eq_or_imp, forall_eq]
    exact ⟨⟨by decide, by decide, ⟨0x200, rfl⟩, ⟨0x202, rfl⟩, by decide⟩,
      ⟨by decide, by decide, ⟨0x2000, rfl⟩, ⟨0x3fff, rfl⟩, by decide⟩⟩
  disjoint := by simp [sampleEnv]

/-- The alignment of all tests that walk over words. -/
theorem alignOk_wordBytes (arch : Arch) : AlignOk arch arch.wordBytes := by
  cases arch with
  | b32 => exact ⟨⟨2, by decide, rfl⟩, Nat.dvd_refl _⟩
  | b64 => exact ⟨⟨3, by decide, rfl⟩, Nat.dvd_refl _⟩

end Memtest
