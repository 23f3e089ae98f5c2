import Memtest.Tests.SizingRun

/-!
# The estimate and the master

The ticks of the dummy run and those of the master are both the blocks of the test, as often as the
test counts them. So the estimate is right if the test counts none, and otherwise if the blocks are
as many.
-/

namespace Memtest

open Hoare

variable {arch : Arch}

/-! ### The segments of the real run -/

theorem vecBytes_dvd_firstWord (arch : Arch) (limits : PageLimits) :
    vecBytes arch ∣ firstWord limits := by
  obtain ⟨q, hq⟩ := exists_firstWordMapping limits.lower
  rw [firstWord]
  split
  · cases arch <;> decide
  · rw [hq]
    exact Nat.dvd_mul_left_of_dvd (dvd_pageSize arch).2 q

section

variable {aarch64 : Bool} {k : ℕ} {limits : PageLimits} {vmMap : List VmSegment}

/-- Nothing but the start of a segment is moved. -/
theorem exists_mem_of_mem_runVmMap {seg : VmSegment}
    (hseg : seg ∈ runVmMap aarch64 k limits vmMap) :
    ∃ seg' ∈ vmMap, seg.stop = seg'.stop ∧
      (seg.start = seg'.start ∨ seg.start = firstWord limits) := by
  rw [runVmMap] at hseg
  split at hseg
  · exact ⟨seg, hseg, rfl, .inl rfl⟩
  · exact exists_mem_of_mem_moveFirstWord hseg

theorem length_runVmMap : (runVmMap aarch64 k limits vmMap).length = vmMap.length := by
  rw [runVmMap]
  split
  · rfl
  rw [moveFirstWord]
  split
  · exact List.length_modifyHead
  · rfl

end

namespace SizedWindow

variable {w : SizedWindow} {cfg : RunConfig arch}

/-- The segments begin above address 0, and none ends before the word in front of it. They are
those of the real run, in which `run_test` has moved the start of the first one. -/
def RealStarts (arch : Arch) (w : SizedWindow) : Prop :=
  ∀ seg ∈ w.runVmMap, 0 < seg.start ∧ seg.start ≤ seg.stop + arch.wordBytes

section

variable (hpages : ∀ seg ∈ w.vmMap, WholePages arch seg) (hreal : w.RealStarts arch)

include hpages hreal

theorem segment_runVmMap {seg : VmSegment} (hseg : seg ∈ w.runVmMap) :
    SegmentOk arch seg ∧ seg.start + vecBytes arch ≤ 2 ^ arch.bits ∨ SegmentEmpty arch seg := by
  obtain ⟨hpos, hle⟩ := hreal seg hseg
  obtain ⟨seg', hmem, hstop, hstart⟩ := exists_mem_of_mem_runVmMap hseg
  have hpage := hpages seg' hmem
  have hvec : vecBytes arch ∣ seg.start := by
    obtain h | h := hstart <;> rw [h]
    · exact (dvd_pageSize arch).2.trans hpage.start_dvd
    · exact vecBytes_dvd_firstWord arch w.limits
  have hlt : seg.start < 2 ^ arch.bits := by
    obtain h | h := hstart <;> rw [h]
    · exact hpage.start_lt
    · exact firstWord_lt arch w.limits
  have hword : arch.wordBytes ∣ seg.start := (Nat.dvd_mul_left _ _).trans hvec
  have hlast : arch.wordBytes ∣ seg.stop := hstop ▸ hpage.stop_word_dvd
  by_cases hempty : seg.stop < seg.start
  · right
    refine ⟨le_antisymm hle ?_, hlt⟩
    obtain ⟨a, ha⟩ := hword
    obtain ⟨b, hb⟩ := hlast
    rw [ha, hb] at hempty ⊢
    exact Nat.mul_le_mul_left _ (Nat.lt_of_mul_lt_mul_left hempty)
  · left
    refine ⟨⟨hpos, not_lt.mp hempty, hword, hlast, hstop ▸ hpage.lt⟩, ?_⟩
    have hbits : vecBytes arch ∣ 2 ^ arch.bits := by cases arch <;> decide
    have hroom := Nat.le_of_dvd (Nat.sub_pos_of_lt hlt) (Nat.dvd_sub hbits hvec)
    omega

/-! ### The master -/

variable (hindex : w.cpus.IndexOk w.master) (readBack : ℕ → Testword arch → Testword arch)

include hindex

theorem master_waitsOk : WaitsOk (w.masterEnv readBack) := by
  have hsegs : ∀ seg ∈ w.runVmMap, SegmentOk arch seg ∨ SegmentEmpty arch seg := fun seg hseg =>
    (segment_runVmMap hpages hreal hseg).imp_left And.left
  exact
    { words := .of_segmentOk hsegs (alignOk_wordBytes arch) hindex
      moves := .of_segmentOk hsegs (alignOk_sixteen arch) hindex
      bodies := .of_segmentOk (fun seg hseg => segment_runVmMap hpages hreal hseg) hindex
      spin := show moduloN ≤ spinSize by decide }

omit hpages hreal hindex

/-- The master counts a chunk that it skips as one block. -/
theorem master_testBlocks (test : ℕ) :
    (w.masterEnv readBack : TestEnv arch).testBlocks test = w.masterBlocks arch test := by
  have hcpu : 0 ≤ (w.masterEnv readBack).myCpu := Int.natCast_nonneg w.master
  have hsweep := sweepBlocks_of_nonneg hcpu
  match test with
  | 1 | 2 => rfl
  | 3 =>
    have hones : (w.runVmMap.map fun _ => blockCount spinSize 0) =
        List.replicate w.vmMap.length 1 := by
      rw [List.map_const', runVmMap, length_runVmMap]
      rfl
    refine (hsweep _ _ _).trans ((congrArg List.sum hones).trans ?_)
    exact List.sum_replicate_nat.trans (Nat.mul_one _)
  | 5 => exact hsweep _ _ _
  | 7 => exact congrArg₂ (· + ·) (hsweep _ _ _) (hsweep _ _ _)
  | 8 => exact hsweep _ _ _
  | 0 | 4 | 6 => exact hsweep _ _ _
  | n + 9 => exact hsweep _ _ _

end

/-! ### The ticks of both -/

section

variable (hpages : ∀ seg ∈ w.vmMap, WholePages arch seg) (htest : cfg.test ≤ 11)
  (store : ℕ → Testword arch) (readBack : ℕ → Testword arch → Testword arch)

include hpages htest

theorem sizingTicks_eq :
    w.sizingTicks cfg store readBack =
      cfg.fixedTicks + cfg.sweeps * w.sizedBlocks arch cfg.test := by
  have hcount := counted_runTest (fun _ => rfl) (sizing_waitsOk hpages readBack) htest store
  rw [ticksIn_testWaits _ htest, sizing_testBlocks hpages] at hcount
  have hneg : ¬0 ≤ (w.sizingEnv readBack).myCpu := show ¬(0 : ℤ) ≤ -1 by decide
  rw [← hcount, TestState.counted, if_neg hneg]
  rfl

theorem masterTicks_eq (hreal : w.RealStarts arch) (hindex : w.cpus.IndexOk w.master) :
    w.masterTicks cfg store readBack =
      cfg.fixedTicks + cfg.sweeps * w.masterBlocks arch cfg.test := by
  have hok := master_waitsOk hpages hreal hindex readBack
  have hcount := counted_runTest (fun _ => rfl) hok htest store
  rw [ticksIn_testWaits _ htest, master_testBlocks] at hcount
  have hcpu : 0 ≤ (w.masterEnv readBack).myCpu := Int.natCast_nonneg w.master
  rw [← hcount, TestState.counted, if_pos hcpu]
  rfl

end

theorem sweeps_eq_of_sameCall {cfg cfg' : RunConfig arch} (h : SameCall cfg cfg') :
    cfg'.sweeps = cfg.sweeps ∧ cfg'.fixedTicks = cfg.fixedTicks := by
  have hoffsets : walk1Offsets arch cfg'.passNum = walk1Offsets arch cfg.passNum := by
    simp only [walk1Offsets, h.passType]
  constructor
  · rw [RunConfig.sweeps, RunConfig.sweeps, h.test, h.stage, h.iterations, hoffsets]
  · rw [RunConfig.fixedTicks, RunConfig.fixedTicks, h.test, h.stage, h.iterations, h.lastStage]

theorem ticks_eq_iff (hpages : ∀ seg ∈ w.vmMap, WholePages arch seg)
    (hreal : w.RealStarts arch) (hindex : w.cpus.IndexOk w.master) (htest : cfg.test ≤ 11)
    {cfg' : RunConfig arch} (hcall : SameCall cfg cfg') (store : ℕ → Testword arch)
    (readBack : ℕ → Testword arch → Testword arch) (store' : ℕ → Testword arch)
    (readBack' : ℕ → Testword arch → Testword arch) :
    w.sizingTicks cfg store readBack = w.masterTicks cfg' store' readBack' ↔
      cfg.sweeps = 0 ∨ w.sizedBlocks arch cfg.test = w.masterBlocks arch cfg.test := by
  have htest' : cfg'.test ≤ 11 := hcall.test.trans_le htest
  obtain ⟨hsweeps, hfixed⟩ := sweeps_eq_of_sameCall hcall
  rw [sizingTicks_eq hpages htest, masterTicks_eq hpages htest' _ _ hreal hindex, hsweeps,
    hfixed, hcall.test, Nat.add_left_cancel_iff, mul_eq_mul_left_iff, or_comm]

/-- **The estimate of the sizing run.** It is right just if the test does not count the blocks of
its chunks, or if the non-empty segments have as many of them as the chunks of the master, an
empty or too short chunk counting as one.

So it is right in a 64-bit build, where a segment of a window is a single block however it is
divided, unless a segment is empty. In a 32-bit build a segment of more than half a gigabyte has
two blocks, but a chunk of it one. The condition compares two counts that are computed from
`vm_map` and the configuration of the CPUs alone. -/
theorem ticksAgree_iff (hpages : ∀ seg ∈ w.vmMap, WholePages arch seg)
    (hreal : w.RealStarts arch) (hindex : w.cpus.IndexOk w.master) (htest : cfg.test ≤ 11) :
    w.TicksAgree cfg ↔
      cfg.sweeps = 0 ∨ w.sizedBlocks arch cfg.test = w.masterBlocks arch cfg.test := by
  constructor
  · intro hagree
    have hcall : SameCall cfg cfg := ⟨rfl, rfl, rfl, rfl, Iff.rfl⟩
    exact (ticks_eq_iff hpages hreal hindex htest hcall (fun _ => 0) (fun _ => id) (fun _ => 0)
      fun _ => id).mp (hagree cfg hcall _ _ _ _)
  · intro hblocks cfg' hcall store readBack store' readBack'
    exact (ticks_eq_iff hpages hreal hindex htest hcall _ _ _ _).mpr hblocks

/-- The second window of a 32-bit build, with memory everywhere, and a number of CPUs. -/
def secondWindow (numCpus : ℕ) : SizedWindow where
  vmMap := [⟨0x400, 0x400000, 0x3ffffffc, 0⟩]
  windowNum := 1
  limits := ⟨0, 0x100000⟩
  aarch64 := false
  cpus := ⟨numCpus, false, numCpus, fun _ => 0, id, fun _ => 0⟩
  master := 0

/-- Test 4, with one iteration. -/
def fixedPatterns : RunConfig .b32 where
  test := 4
  stage := 0
  iterations := 1
  passNum := 0
  lastStage := -1
  simdTier := false
  rdtsc := true
  tsc := fun _ => 0
  hammer := ⟨0, 64, fun _ => 0⟩

theorem secondWindow_wholePages (numCpus : ℕ) :
    ∀ seg ∈ (secondWindow numCpus).vmMap, WholePages .b32 seg := by
  intro seg hseg
  rw [List.mem_singleton.mp hseg]
  exact ⟨⟨0x400, rfl⟩, ⟨0x40000, rfl⟩, by decide, by decide, by decide⟩

theorem secondWindow_realStarts (numCpus : ℕ) : (secondWindow numCpus).RealStarts .b32 := by
  intro seg hseg
  rw [List.mem_singleton.mp hseg]
  exact ⟨by decide, by decide⟩

/-- One CPU has the blocks of the whole segment. -/
theorem ticksAgree_secondWindow_one : (secondWindow 1).TicksAgree fixedPatterns :=
  (ticksAgree_iff (secondWindow_wholePages 1) (secondWindow_realStarts 1) (.inl rfl)
    (by decide)).mpr (.inr (by decide))

/-- Two CPUs have one block each, but the segment has two. -/
theorem not_ticksAgree_secondWindow_two : ¬(secondWindow 2).TicksAgree fixedPatterns := by
  intro hagree
  have hcall : SameCall fixedPatterns fixedPatterns := ⟨rfl, rfl, rfl, rfl, Iff.rfl⟩
  have hblocks := (ticks_eq_iff (secondWindow_wholePages 2) (secondWindow_realStarts 2)
    (.inr (by decide)) (by decide) hcall _ _ _ _).mp
      (hagree _ hcall (fun _ => 0) (fun _ => id) (fun _ => 0) fun _ => id)
  revert hblocks
  decide

end SizedWindow

end Memtest
