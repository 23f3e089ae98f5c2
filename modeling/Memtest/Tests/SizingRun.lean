import Memtest.Tests.Lockstep
import Memtest.Tests.Sizing
import Memtest.Windows.FirstWord

/-!
# The estimate of the sizing run (`test_all_windows` in `app/main.c`)

The progress bars go by the ticks that `run_test` returns in the dummy run, which is made as if by
the only active CPU. There the segments are whole, and one that is empty is passed over without a
tick. The master of the real run goes through chunks, and skips what is empty or too short with a
tick. So the estimate is right just if both meet as many blocks, unless the test does not count
them at all.
-/

namespace Memtest

open Hoare

variable {arch : Arch}

/-! ### How often a test counts its blocks -/

/-- The blocks that a test counts over and over. -/
def TestEnv.testBlocks (env : TestEnv arch) (test : ℕ) : ℕ :=
  match test with
  | 1 | 2 => env.wholeBlocks
  | 3 => env.busBlocks
  | 5 => env.bodyBlocks
  | 7 => env.sparseBlocks moduloN + env.chunkBlocks arch.wordBytes moduloN
  | 8 => env.chunkBlocks (16 * arch.wordBytes) 16
  | _ => env.chunkBlocks arch.wordBytes 1

/-- How often a test counts the blocks of its chunks, in one call of `run_test`. It is 0 for the
tests that tick in another way, and for the stages and the numbers of iterations in which nothing
is swept. -/
def RunConfig.sweeps (cfg : RunConfig arch) : ℕ :=
  match cfg.test with
  | 1 => 2
  | 2 => if cfg.stage < 2 then 1 else 0
  | 3 => 2 * atLeastOne cfg.iterations
  | 4 => 2 * (1 + 2 * cfg.iterations)
  | 5 => 3 * cfg.iterations
  | 6 => 16 * (1 + 2 * cfg.iterations)
  | 7 => 80 * cfg.iterations
  | 8 => 2 + cfg.iterations
  | 9 => (walk1Offsets arch cfg.passNum).length * (2 * (1 + 2 * atLeastOne cfg.iterations))
  | 10 => if cfg.stage % 3 = 1 then 0 else 1
  | _ => 0

/-- The ticks of a test that are no blocks. -/
def RunConfig.fixedTicks (cfg : RunConfig arch) : ℕ :=
  match cfg.test with
  | 0 => 2
  | 10 => if cfg.stage % 3 = 1 ∧ (cfg.stage : ℤ) ≠ cfg.lastStage then cfg.iterations else 0
  | 11 => rhSites
  | _ => 0

theorem ticksIn_fadeWaits (lastStage : ℤ) (stage sleepSecs n : ℕ) :
    ticksIn (fadeWaits lastStage stage sleepSecs n) =
      (if stage % 3 = 1 ∧ (stage : ℤ) ≠ lastStage then sleepSecs else 0) +
        (if stage % 3 = 1 then 0 else 1) * n := by
  obtain h | h | h : stage % 3 = 0 ∨ stage % 3 = 1 ∨ stage % 3 = 2 := by omega
  · simp [fadeWaits, h]
  · by_cases hlast : (stage : ℤ) = lastStage <;> simp [fadeWaits, h, hlast]
  · simp [fadeWaits, h]

theorem ticksIn_ownAddr2Waits (stage n : ℕ) :
    ticksIn (ownAddr2Waits stage n) = (if stage < 2 then 1 else 0) * n := by
  obtain _ | _ | stage := stage <;> simp [ownAddr2Waits]

/-- The ticks of a test: those that are no blocks, and the blocks as often as they are counted. -/
theorem ticksIn_testWaits (env : TestEnv arch) {cfg : RunConfig arch} (htest : cfg.test ≤ 11) :
    ticksIn (testWaits env cfg) = cfg.fixedTicks + cfg.sweeps * env.testBlocks cfg.test := by
  have hmovInv : ∀ iterations n,
      ticksIn (movInvWaits iterations n) = (1 + 2 * iterations) * n := by
    intro iterations n
    simp only [movInvWaits, ticksIn_append, ticksIn_repeatWaits, ticksIn_tickWaits,
      ticksIn_flushWaits]
    ring
  obtain h | h | h | h | h | h | h | h | h | h | h | h : cfg.test = 0 ∨ cfg.test = 1 ∨
      cfg.test = 2 ∨ cfg.test = 3 ∨ cfg.test = 4 ∨ cfg.test = 5 ∨ cfg.test = 6 ∨ cfg.test = 7 ∨
      cfg.test = 8 ∨ cfg.test = 9 ∨ cfg.test = 10 ∨ cfg.test = 11 := by omega
  all_goals simp only [testWaits, caseWaits, RunConfig.fixedTicks, RunConfig.sweeps,
    TestEnv.testBlocks, h, ticksIn_append, ticksIn_repeatWaits, ticksIn_tickWaits,
    ticksIn_flushWaits, ticksIn_twiceWaits, ticksIn_plain, ticksIn_ownAddr2Waits,
    ticksIn_fadeWaits, hmovInv, ownAddrWaits, busWaits, rngWaits, moduloWaits, blockMoveWaits,
    moduloN]
  all_goals ring

/-! ### Whole pages -/

/-- A segment as `setup_vm_map` makes it: a number of pages, possibly none. Its end is the address
of its last word, so the end of an empty one lies a word below its start. -/
structure WholePages (arch : Arch) (seg : VmSegment) : Prop where
  start_dvd : pageSize ∣ seg.start
  stop_dvd : pageSize ∣ seg.stop + arch.wordBytes
  start_le : seg.start ≤ seg.stop + arch.wordBytes
  start_lt : seg.start < 2 ^ arch.bits
  lt : seg.stop + arch.wordBytes ≤ 2 ^ arch.bits

section

variable {seg : VmSegment}

theorem dvd_pageSize (arch : Arch) : arch.wordBytes ∣ pageSize ∧ vecBytes arch ∣ pageSize := by
  cases arch <;> decide

theorem WholePages.stop_word_dvd (h : WholePages arch seg) : arch.wordBytes ∣ seg.stop :=
  (Nat.dvd_add_iff_left (Nat.dvd_refl _)).mpr ((dvd_pageSize arch).1.trans h.stop_dvd)

/-- A segment with a page has a number of vector blocks, and enough words for every test. -/
theorem WholePages.length_of_le (h : WholePages arch seg) (hle : seg.start ≤ seg.stop) :
    512 ≤ seg.length arch ∧ 4 ∣ seg.length arch := by
  obtain ⟨a, ha⟩ := h.start_dvd
  obtain ⟨b, hb⟩ := h.stop_dvd
  have hpage : pageSize = 4096 := rfl
  rw [hpage] at ha hb
  cases arch <;> simp only [VmSegment.length, Arch.wordBytes] at hb ⊢ <;> omega

theorem WholePages.length_of_lt (h : WholePages arch seg) (hlt : seg.stop < seg.start) :
    seg.length arch = 0 := by
  obtain ⟨a, ha⟩ := h.start_dvd
  obtain ⟨b, hb⟩ := h.stop_dvd
  have hpage : pageSize = 4096 := rfl
  rw [hpage] at ha hb
  cases arch <;> simp only [VmSegment.length, Arch.wordBytes] at hb ⊢ <;> omega

/-- The last word of a page is not the first one of a block. -/
theorem WholePages.not_dvd_stop (h : WholePages arch seg) :
    ¬spinSize ∣ seg.stop / arch.wordBytes := by
  rintro ⟨k, hk⟩
  obtain ⟨b, hb⟩ := h.stop_dvd
  have hpage : pageSize = 4096 := rfl
  rw [hpage] at hb
  cases arch <;> simp only [spinSize, Arch.wordBytes] at hb hk <;> omega

theorem WholePages.splitChunk_eq (h : WholePages arch seg) (hle : seg.start ≤ seg.stop) :
    (splitChunk arch ⟨seg.start, seg.stop⟩).bstart = seg.start / arch.wordBytes ∧
      (splitChunk arch ⟨seg.start, seg.stop⟩).nbody = seg.length arch := by
  have hvec : vecBytes arch ∣ seg.start := (dvd_pageSize arch).2.trans h.start_dvd
  have hstop : vecBytes arch ∣ seg.stop + arch.wordBytes := (dvd_pageSize arch).2.trans h.stop_dvd
  have hword := arch.wordBytes_pos
  have hroom : seg.start + vecBytes arch ≤ seg.stop + arch.wordBytes := by
    have hlt : seg.start < seg.stop + arch.wordBytes := by omega
    have := Nat.le_of_dvd (Nat.sub_pos_of_lt hlt) (Nat.dvd_sub hstop hvec)
    omega
  have hround : roundUp arch seg.start (vecBytes arch) = seg.start := by
    obtain ⟨k, hk⟩ := hvec
    have hpos : 0 < vecBytes arch := by cases arch <;> decide
    rw [roundUp_eq (hroom.trans h.lt), hk, Nat.mul_add_div hpos,
      Nat.div_eq_of_lt (Nat.sub_lt hpos Nat.one_pos), Nat.add_zero, Nat.mul_comm]
  have hwords : seg.start / arch.wordBytes ≤ seg.stop / arch.wordBytes :=
    Nat.div_le_div_right hle
  have hmod := (h.length_of_le hle).2
  rw [VmSegment.length] at hmod ⊢
  dsimp only [splitChunk, vecLanes]
  rw [hround, if_pos hwords]
  exact ⟨rfl, by omega⟩

end

/-! ### The two runs -/

/-- `vm_map` behind the beginning of `run_test`, where the master moves the start of the first
segment. In an AArch64 build it only moves it up. -/
def runVmMap (aarch64 : Bool) (windowNum : ℕ) (limits : PageLimits) (vmMap : List VmSegment) :
    List VmSegment :=
  if aarch64 = true ∧ ∀ seg ∈ vmMap.head?, firstWord limits ≤ seg.start then vmMap
  else moveFirstWord windowNum limits vmMap

/-- A window, and the CPUs that test it in the real run. -/
structure SizedWindow where
  vmMap : List VmSegment
  windowNum : ℕ
  limits : PageLimits
  aarch64 : Bool
  cpus : ChunkConfig
  master : ℕ

namespace SizedWindow

variable (w : SizedWindow)

/-- `vm_map` in the real run. -/
def runVmMap : List VmSegment := Memtest.runVmMap w.aarch64 w.windowNum w.limits w.vmMap

/-- What the dummy run reads. CPU -1 is not the master, so it does not move the first segment. -/
def sizingEnv (readBack : ℕ → Testword arch → Testword arch) : TestEnv arch where
  spinSize := spinSize
  spinSize_pos := spinSize_pos
  vmMap := w.vmMap
  cfg := { w.cpus with numActiveCpus := 1 }
  myCpu := -1
  readBack := readBack
  bail := fun _ => false

/-- What the master reads in the real run. -/
def masterEnv (readBack : ℕ → Testword arch → Testword arch) : TestEnv arch where
  spinSize := spinSize
  spinSize_pos := spinSize_pos
  vmMap := w.runVmMap
  cfg := w.cpus
  myCpu := w.master
  readBack := readBack
  bail := fun _ => false

/-- What `run_test(-1, ...)` returns. -/
def sizingTicks (cfg : RunConfig arch) (store : ℕ → Testword arch)
    (readBack : ℕ → Testword arch → Testword arch) : ℕ :=
  ((Tests.runTest (w.sizingEnv readBack) cfg).exec ⟨.init store, 0⟩).2.test.ticks

/-- How often the master calls `do_tick`. -/
def masterTicks (cfg : RunConfig arch) (store : ℕ → Testword arch)
    (readBack : ℕ → Testword arch → Testword arch) : ℕ :=
  ((Tests.runTest (w.masterEnv readBack) cfg).exec ⟨.init store, 0⟩).2.test.doTicks

end SizedWindow

/-- The same test in the same kind of pass, with the same arguments. -/
structure SameCall (cfg cfg' : RunConfig arch) : Prop where
  test : cfg'.test = cfg.test
  stage : cfg'.stage = cfg.stage
  iterations : cfg'.iterations = cfg.iterations
  lastStage : cfg'.lastStage = cfg.lastStage
  passType : cfg'.passNum = 0 ↔ cfg.passNum = 0

/-- The estimate is what the master makes of it, whatever either run finds in memory. Both are
given the same test, stage and iterations (`SameCall`); the clock and what is read back may
differ. -/
def SizedWindow.TicksAgree (w : SizedWindow) (cfg : RunConfig arch) : Prop :=
  ∀ cfg', SameCall cfg cfg' → ∀ store readBack store' readBack',
    w.sizingTicks cfg store readBack = w.masterTicks cfg' store' readBack'

/-- The segments that are not empty, each of which counts for something. -/
def segmentSum (vmMap : List VmSegment) (count : VmSegment → ℕ) : ℕ :=
  (vmMap.map fun seg => if seg.stop < seg.start then 0 else count seg).sum

theorem segmentSum_congr {vmMap : List VmSegment} {count count' : VmSegment → ℕ}
    (h : ∀ seg ∈ vmMap, count seg = count' seg) :
    segmentSum vmMap count = segmentSum vmMap count' := by
  refine congrArg List.sum (List.map_congr_left fun seg hseg => ?_)
  rw [h seg hseg]

theorem segmentSum_add (vmMap : List VmSegment) (count count' : VmSegment → ℕ) :
    segmentSum vmMap count + segmentSum vmMap count' =
      segmentSum vmMap fun seg => count seg + count' seg := by
  rw [segmentSum, segmentSum, segmentSum, ← List.sum_map_add]
  refine congrArg List.sum (List.map_congr_left fun seg _ => ?_)
  split <;> rfl

/-- The blocks of the whole segments, which is what the dummy run counts: a chunk is not computed
for it, and an empty segment is passed over. -/
def SizedWindow.sizedBlocks (arch : Arch) (w : SizedWindow) (test : ℕ) : ℕ :=
  match test with
  | 1 | 2 => blockSum spinSize w.vmMap (VmSegment.length arch)
  | 3 => segmentSum w.vmMap fun _ => 1
  | 7 => segmentSum w.vmMap fun seg => blockCount spinSize (seg.length arch - moduloN) +
      blockCount spinSize (seg.length arch)
  | _ => segmentSum w.vmMap fun seg => blockCount spinSize (seg.length arch)

/-- The blocks of the master's chunks, where an empty one counts as one block. With several CPUs a
chunk is a part of the segment, and the rounding of its length up to blocks need not divide
evenly. -/
def SizedWindow.masterBlocks (arch : Arch) (w : SizedWindow) (test : ℕ) : ℕ :=
  match test with
  | 1 | 2 => blockSum spinSize w.runVmMap (VmSegment.length arch)
  | 3 => w.vmMap.length
  | 5 => blockSum spinSize w.runVmMap (bodyLength arch w.cpus w.master)
  | 7 => blockSum spinSize w.runVmMap (fun seg =>
        chunkLength arch w.cpus w.master arch.wordBytes seg - moduloN) +
      blockSum spinSize w.runVmMap (chunkLength arch w.cpus w.master arch.wordBytes)
  | 8 => blockSum spinSize w.runVmMap (chunkLength arch w.cpus w.master (16 * arch.wordBytes))
  | _ => blockSum spinSize w.runVmMap (chunkLength arch w.cpus w.master arch.wordBytes)

namespace SizedWindow

variable {w : SizedWindow} {cfg : RunConfig arch}

/-! ### The dummy run -/

section

variable (hpages : ∀ seg ∈ w.vmMap, WholePages arch seg)
  (readBack : ℕ → Testword arch → Testword arch)

/-- The only active CPU has whole segments. -/
theorem sizing_chunk (chunkAlign : ℕ) (seg : VmSegment) :
    calculateChunk arch (w.sizingEnv readBack).cfg (w.sizingEnv readBack).myCpu seg chunkAlign =
      some ⟨seg.start, seg.stop⟩ := rfl

include hpages

theorem sizing_chunksOk (chunkAlign : ℕ) : ChunksOk (w.sizingEnv readBack) chunkAlign := by
  intro seg hseg
  have hpage := hpages seg hseg
  exact ⟨_, rfl, fun _ => ⟨(dvd_pageSize arch).1.trans hpage.start_dvd, hpage.stop_word_dvd,
    .inr hpage.not_dvd_stop⟩⟩

theorem sizing_bodiesOk : BodiesOk (w.sizingEnv readBack) := by
  intro seg hseg
  have hpage := hpages seg hseg
  refine ⟨_, rfl, fun hle => .inr ?_⟩
  obtain ⟨hbstart, hnbody⟩ := hpage.splitChunk_eq (not_lt.mp hle)
  have hstop := hpage.not_dvd_stop
  have hwords : seg.start / arch.wordBytes ≤ seg.stop / arch.wordBytes :=
    Nat.div_le_div_right (not_lt.mp hle)
  rw [hbstart, hnbody, VmSegment.length, show seg.start / arch.wordBytes +
    (seg.stop / arch.wordBytes + 1 - seg.start / arch.wordBytes - 1) = seg.stop / arch.wordBytes by
      omega]
  exact hstop

theorem sizing_waitsOk : WaitsOk (w.sizingEnv readBack) where
  words := sizing_chunksOk hpages readBack _
  moves := sizing_chunksOk hpages readBack _
  bodies := sizing_bodiesOk hpages readBack
  spin := show moduloN ≤ spinSize by decide

/-- Empty segments do not count, and all others are long enough for every test. -/
theorem sizing_sweepBlocks {least : ℕ} (hleast : 0 < least ∧ least ≤ 512)
    {words : VmSegment → ℕ} (hwords : ∀ seg ∈ w.vmMap, words seg = seg.length arch)
    (length : VmSegment → ℕ) :
    (w.sizingEnv readBack).sweepBlocks least words length =
      segmentSum w.vmMap fun seg => blockCount spinSize (length seg) := by
  refine congrArg List.sum (List.map_congr_left fun seg hseg => ?_)
  have hpage := hpages seg hseg
  have hneg : (w.sizingEnv readBack).myCpu < 0 := show (-1 : ℤ) < 0 by decide
  rw [hwords seg hseg]
  split
  · next hlt =>
    rw [TestEnv.countedBlocks, if_pos ⟨hneg, (hpage.length_of_lt hlt).trans_lt hleast.1⟩]
  · next hle =>
    exact countedBlocks_of_le (hleast.2.trans (hpage.length_of_le (not_lt.mp hle)).1)

theorem sizing_chunkLength (chunkAlign : ℕ) {seg : VmSegment} (hseg : seg ∈ w.vmMap) :
    chunkLength arch (w.sizingEnv readBack).cfg (w.sizingEnv readBack).myCpu chunkAlign seg =
      seg.length arch := by
  rw [chunkLength_eq (sizing_chunk readBack chunkAlign seg), Chunk.length]
  split
  · next hlt => exact ((hpages seg hseg).length_of_lt hlt).symm
  · rfl

theorem sizing_bodyLength {seg : VmSegment} (hseg : seg ∈ w.vmMap) :
    bodyLength arch (w.sizingEnv readBack).cfg (w.sizingEnv readBack).myCpu seg =
      seg.length arch := by
  rw [bodyLength_eq (sizing_chunk readBack _ seg), Chunk.bodyLength]
  split
  · next hlt => exact ((hpages seg hseg).length_of_lt hlt).symm
  · next hle => exact ((hpages seg hseg).splitChunk_eq (not_lt.mp hle)).2

theorem sizing_chunkBlocks (chunkAlign : ℕ) {least : ℕ} (hleast : 0 < least ∧ least ≤ 512) :
    (w.sizingEnv readBack : TestEnv arch).chunkBlocks chunkAlign least =
      segmentSum w.vmMap fun seg => blockCount spinSize (seg.length arch) := by
  rw [TestEnv.chunkBlocks, sizing_sweepBlocks hpages readBack hleast fun seg hseg =>
    sizing_chunkLength hpages readBack chunkAlign hseg]
  exact segmentSum_congr fun seg hseg => by
    rw [sizing_chunkLength hpages readBack chunkAlign hseg]

theorem sizing_sparseBlocks :
    (w.sizingEnv readBack : TestEnv arch).sparseBlocks moduloN =
      segmentSum w.vmMap fun seg => blockCount spinSize (seg.length arch - moduloN) := by
  rw [TestEnv.sparseBlocks, sizing_sweepBlocks hpages readBack (by decide) fun seg hseg =>
    sizing_chunkLength hpages readBack _ hseg]
  exact segmentSum_congr fun seg hseg => by rw [sizing_chunkLength hpages readBack _ hseg]

theorem sizing_bodyBlocks :
    (w.sizingEnv readBack : TestEnv arch).bodyBlocks =
      segmentSum w.vmMap fun seg => blockCount spinSize (seg.length arch) := by
  rw [TestEnv.bodyBlocks, sizing_sweepBlocks hpages readBack (by decide) fun seg hseg =>
    sizing_bodyLength hpages readBack hseg]
  exact segmentSum_congr fun seg hseg => by rw [sizing_bodyLength hpages readBack hseg]

theorem sizing_busBlocks :
    (w.sizingEnv readBack : TestEnv arch).busBlocks = segmentSum w.vmMap fun _ => 1 := by
  rw [TestEnv.busBlocks, sizing_sweepBlocks hpages readBack (by decide) fun seg hseg =>
    sizing_bodyLength hpages readBack hseg]
  exact segmentSum_congr fun _ _ => blockCount_of_lt (Nat.zero_le _) (by decide)

theorem sizing_testBlocks (test : ℕ) :
    (w.sizingEnv readBack : TestEnv arch).testBlocks test = w.sizedBlocks arch test := by
  have hchunks := fun chunkAlign {least} =>
    @sizing_chunkBlocks arch w hpages readBack chunkAlign least
  match test with
  | 1 | 2 => rfl
  | 3 => exact sizing_busBlocks hpages readBack
  | 5 => exact sizing_bodyBlocks hpages readBack
  | 7 =>
    have hboth := congrArg₂ (· + ·) (sizing_sparseBlocks hpages readBack)
      (hchunks arch.wordBytes (by decide : 0 < moduloN ∧ moduloN ≤ 512))
    exact hboth.trans (segmentSum_add _ _ _)
  | 8 => exact hchunks _ (by decide)
  | 0 | 4 | 6 => exact hchunks _ (by decide)
  | n + 9 => exact hchunks _ (by decide)

end

end SizedWindow

end Memtest
