import Memtest.Lib.Keeps
import Memtest.Tests.RunTest
import Memtest.Tests.Words

/-!
# What the sizing run leaves alone

In a dummy run a test counts ticks and computes chunks, and does nothing else. It looks into the
tables of the chunks as if it were CPU 0. The exception is `test_addr_walk1`, which resets
`test_addr[my_cpu]` before it has looked at `my_cpu`, and so writes in front of the array.
-/

namespace Memtest

open Hoare

variable {arch : Arch} {α β : Type} {env : TestEnv arch} {P : TestState arch → Prop}

/-- What a dummy run does to a state: it counts ticks, and uses the tables of CPU 0. -/
structure Undisturbed (P : TestState arch → Prop) : Prop where
  countTick : ∀ s, P s → P s.countTick
  useSlot : ∀ s, P s → P (s.useSlot 0)

section

variable (h : Undisturbed P) (hneg : env.myCpu < 0)

include hneg

/-! ### Chunks and blocks -/

theorem skipRange_keeps (numTicks : ℕ) : Keeps P (skipRange env numTicks) :=
  Keeps.ite (fun hcpu => absurd hneg (not_lt.mpr hcpu)) fun _ => Keeps.pure ()

theorem flushCaches_keeps : Keeps P (flushCaches env) :=
  Keeps.ite (fun hcpu => absurd hneg (not_lt.mpr hcpu)) fun _ => Keeps.pure ()

theorem flushCachesAll_keeps : Keeps P (flushCachesAll env) :=
  Keeps.ite (fun hcpu => absurd hneg (not_lt.mpr hcpu)) fun _ => Keeps.pure ()

theorem unlessDummy_keeps (act : TestM arch Unit) : Keeps P (unlessDummy env act) :=
  Keeps.ite (fun hcpu => absurd hneg (not_lt.mpr hcpu)) fun _ => Keeps.pure ()

include h

theorem chunkOf_keeps (chunkAlign : ℕ) (seg : VmSegment) :
    Keeps P (chunkOf env chunkAlign seg) := by
  have htables : Keeps P (useChunkTables env) := by
    rw [useChunkTables, if_pos hneg]
    exact Keeps.ite (fun _ => Keeps.pure ()) fun _ => Keeps.modify h.useSlot
  refine htables.bind fun _ => ?_
  split
  · exact Keeps.pure _
  · exact Keeps.throw _

/-- What is done with a block does not matter, since nothing is. -/
theorem oneBlock_keeps (block : ℕ → β → TestM arch β) (pe : ℕ) (b : β) :
    Keeps P (oneBlock env block pe b) := by
  rw [oneBlock, if_pos hneg]
  exact (Keeps.modify h.countTick).bind fun _ => Keeps.pure b

theorem blocksUp_keeps (block : ℕ → β → TestM arch β) (stop pe : ℕ) (b : β) :
    Keeps P (blocksUp env stop block pe b) := by
  have hpos := env.spinSize_pos
  induction hn : stop - pe using Nat.strongRecOn generalizing pe b with
  | _ n ih =>
    rw [blocksUp]
    split
    · exact (oneBlock_keeps h hneg block _ b).bind fun b' => ih _ (by omega) _ b' rfl
    · exact oneBlock_keeps h hneg block stop b

theorem blocksDown_keeps (block : ℕ → β → TestM arch β) (start ps : ℕ) (b : β) :
    Keeps P (blocksDown env start block ps b) := by
  have hpos := env.spinSize_pos
  induction hn : ps using Nat.strongRecOn generalizing ps b with
  | _ n ih =>
    subst hn
    rw [blocksDown]
    split
    · refine (oneBlock_keeps h hneg block _ b).bind fun b' => ?_
      exact Keeps.ite (fun _ => ih _ (by omega) _ b' rfl) fun _ => Keeps.pure b'
    · exact oneBlock_keeps h hneg block start b

theorem segmentUp_keeps (chunkAlign : ℕ) (block : ℕ → ℕ × α → TestM arch (ℕ × α)) (a : α)
    (seg : VmSegment) : Keeps P (segmentUp env chunkAlign block a seg) :=
  (chunkOf_keeps h hneg chunkAlign seg).bind fun _ => Keeps.ite
    (fun _ => (skipRange_keeps hneg 1).bind fun _ => Keeps.pure a)
    fun _ => (blocksUp_keeps h hneg block _ _ _).bind fun r => Keeps.pure r.2

theorem segmentDown_keeps (chunkAlign : ℕ) (block : ℕ → ℕ × α → TestM arch (ℕ × α)) (a : α)
    (seg : VmSegment) : Keeps P (segmentDown env chunkAlign block a seg) :=
  (chunkOf_keeps h hneg chunkAlign seg).bind fun _ => Keeps.ite
    (fun _ => (skipRange_keeps hneg 1).bind fun _ => Keeps.pure a)
    fun _ => (blocksDown_keeps h hneg block _ _ _).bind fun r => Keeps.pure r.2

theorem sweepUp_keeps (chunkAlign : ℕ) (body : ℕ → α → TestM arch α) (a : α) :
    Keeps P (sweepUp env chunkAlign body a) :=
  Keeps.foldlM (fun a seg => segmentUp_keeps h hneg chunkAlign _ a seg) a

theorem sweepDown_keeps (chunkAlign : ℕ) (body : ℕ → α → TestM arch α) (a : α) :
    Keeps P (sweepDown env chunkAlign body a) :=
  Keeps.foldlM (fun a seg => segmentDown_keeps h hneg chunkAlign _ a seg) a

/-! ### Tests of whole segments -/

theorem wholeSegment_keeps (body : ℕ → TestM arch Unit) (seg : VmSegment) :
    Keeps P (wholeSegment env body seg) :=
  (blocksUp_keeps h hneg _ _ _ _).bind fun _ => Keeps.pure ()

theorem ownAddrFill_keeps (offset : Testword arch) : Keeps P (ownAddrFill env offset) :=
  (Keeps.foldlM (fun _ seg => wholeSegment_keeps h hneg _ seg) ()).bind fun _ =>
    flushCaches_keeps hneg

theorem ownAddrCheck_keeps (offset : Testword arch) : Keeps P (ownAddrCheck env offset) :=
  Keeps.foldlM (fun _ seg => wholeSegment_keeps h hneg _ seg) ()

theorem testOwnAddr1_keeps : Keeps P (testOwnAddr1 env) :=
  (Keeps.tryCatch (ownAddrFill_keeps h hneg 0) fun _ => Keeps.pure ()).bind fun _ =>
    ownAddrCheck_keeps h hneg 0

theorem testOwnAddr2_keeps (stage : ℕ) : Keeps P (testOwnAddr2 env stage) := by
  obtain _ | _ | stage := stage
  · exact ownAddrFill_keeps h hneg _
  · exact ownAddrCheck_keeps h hneg _
  · exact Keeps.pure ()

theorem addrWalkRound_keeps (invert : Testword arch) : Keeps P (addrWalkRound env invert) := by
  rw [addrWalkRound, if_pos hneg]
  exact (Keeps.modify h.countTick).bind fun _ => Keeps.pure ()

theorem emptySite_keeps : Keeps P (emptySite env) := by
  rw [emptySite, if_pos hneg]
  exact (Keeps.modify h.countTick).bind fun _ => Keeps.pure ()

theorem hammerSegment_keeps (timing : HammerTiming arch) (seg : VmSegment)
    (fuzzState : Testword arch) (i : ℕ) :
    Keeps P (hammerSegment env timing seg fuzzState i) := by
  rw [hammerSegment, if_pos hneg]
  exact (Keeps.modify h.countTick).bind fun _ => Keeps.pure fuzzState

theorem testRowhammer_keeps (timing : HammerTiming arch) (passNum : ℕ) :
    Keeps P (testRowhammer env timing passNum) := by
  have hempty : Keeps P ((List.range rhSites).foldlM (fun _ _ => emptySite env) ()) :=
    Keeps.foldlM (fun _ _ => emptySite_keeps h hneg) ()
  rw [testRowhammer]
  split
  · exact hempty
  · refine Keeps.ite (fun _ => hempty) fun _ => ?_
    exact (Keeps.foldlM (fun a i => hammerSegment_keeps h hneg timing _ a i) _).bind fun _ =>
      Keeps.pure ()

/-! ### Moving inversions -/

theorem testMovInvFixed_keeps (iterations : ℕ) (pattern1 pattern2 : Testword arch) :
    Keeps P (testMovInvFixed env iterations pattern1 pattern2) := by
  refine (Keeps.foldlM (fun a seg => segmentUp_keeps h hneg _ _ a seg) ()).bind fun _ => ?_
  refine Keeps.foldlM (fun _ _ => ?_) ()
  exact (flushCaches_keeps hneg).bind fun _ => (sweepUp_keeps h hneg _ _ _).bind fun _ =>
    (flushCaches_keeps hneg).bind fun _ => sweepDown_keeps h hneg _ _ _

theorem testMovInvWalk1_keeps (iterations offset : ℕ) (inverse : Bool) :
    Keeps P (testMovInvWalk1 env iterations offset inverse) := by
  refine (sweepUp_keeps h hneg _ _ _).bind fun _ => Keeps.foldlM (fun _ _ => ?_) ()
  exact (flushCaches_keeps hneg).bind fun _ => (sweepUp_keeps h hneg _ _ _).bind fun _ =>
    (flushCaches_keeps hneg).bind fun _ => (sweepDown_keeps h hneg _ _ _).bind fun _ =>
      Keeps.pure ()

section

variable (edge : ℕ → TestM arch Unit)
  (kernel : (nblocks : ℕ) → VecState arch → ℕ → TestM arch (VecState arch))
  (st : VecState arch) (seg : VmSegment)

theorem rngSegmentUp_keeps : Keeps P (rngSegmentUp env edge kernel st seg) := by
  have hskip : Keeps P (do skipRange env 1; pure st) :=
    (skipRange_keeps hneg 1).bind fun _ => Keeps.pure st
  refine (chunkOf_keeps h hneg _ seg).bind fun _ => Keeps.ite (fun _ => hskip) fun _ => ?_
  refine (unlessDummy_keeps hneg _).bind fun _ => Keeps.ite (fun _ => hskip) fun _ => ?_
  exact (blocksUp_keeps h hneg _ _ _ _).bind fun r => Keeps.pure r.2

theorem rngSegmentDown_keeps : Keeps P (rngSegmentDown env edge kernel st seg) := by
  have hskip : Keeps P (do skipRange env 1; pure st) :=
    (skipRange_keeps hneg 1).bind fun _ => Keeps.pure st
  refine (chunkOf_keeps h hneg _ seg).bind fun _ => Keeps.ite (fun _ => hskip) fun _ => ?_
  refine (unlessDummy_keeps hneg _).bind fun _ => Keeps.ite (fun _ => ?_) fun _ => ?_
  · exact (unlessDummy_keeps hneg _).bind fun _ => hskip
  · exact (blocksDown_keeps h hneg _ _ _ _).bind fun r =>
      (unlessDummy_keeps hneg _).bind fun _ => Keeps.pure r.2

end

theorem testMovInvRng_keeps (simdTier : Bool) (clock : Clock) (splatRound : Bool) :
    Keeps P (testMovInvRng env simdTier clock splatRound) := by
  refine (Keeps.foldlM (fun st seg => rngSegmentUp_keeps h hneg _ _ st seg) _).bind fun _ => ?_
  refine (flushCaches_keeps hneg).bind fun _ => ?_
  refine (Keeps.foldlM (fun st seg => rngSegmentUp_keeps h hneg _ _ st seg) _).bind fun _ => ?_
  refine (flushCaches_keeps hneg).bind fun _ => ?_
  exact (Keeps.foldlM (fun st seg => rngSegmentDown_keeps h hneg _ _ st seg) _).bind fun _ =>
    Keeps.pure ()

/-! ### The other tests -/

theorem sparseSegment_keeps (n : ℕ) (hn : 0 < n) (offset : ℕ) (body : ℕ → TestM arch Unit)
    (seg : VmSegment) : Keeps P (sparseSegment env n hn offset body seg) :=
  (chunkOf_keeps h hneg _ seg).bind fun _ => Keeps.ite (fun _ => skipRange_keeps hneg 1) fun _ =>
    (blocksUp_keeps h hneg _ _ _ _).bind fun _ => Keeps.pure ()

theorem restSegment_keeps (n offset : ℕ) (pattern2 : Testword arch) (seg : VmSegment) :
    Keeps P (restSegment env n offset pattern2 seg) :=
  (chunkOf_keeps h hneg _ seg).bind fun _ => Keeps.ite (fun _ => skipRange_keeps hneg 1) fun _ =>
    (blocksUp_keeps h hneg _ _ _ _).bind fun _ => Keeps.pure ()

theorem testModuloN_keeps (iterations : ℕ) (pattern1 pattern2 : Testword arch) (n : ℕ)
    (hn : 0 < n) (offset : ℕ) :
    Keeps P (testModuloN env iterations pattern1 pattern2 n hn offset) := by
  refine (Keeps.foldlM (fun _ seg => sparseSegment_keeps h hneg n hn offset _ seg) ()).bind
    fun _ => ?_
  refine (Keeps.foldlM (fun _ _ => Keeps.foldlM (fun _ seg =>
    restSegment_keeps h hneg n offset pattern2 seg) ()) ()).bind fun _ => ?_
  exact (flushCaches_keeps hneg).bind fun _ =>
    Keeps.foldlM (fun _ seg => sparseSegment_keeps h hneg n hn offset _ seg) ()

theorem fillMoveSegment_keeps (seg : VmSegment) : Keeps P (fillMoveSegment env seg) :=
  (chunkOf_keeps h hneg _ seg).bind fun _ => Keeps.ite (fun _ => skipRange_keeps hneg 1) fun _ =>
    (blocksUp_keeps h hneg _ _ _ _).bind fun _ => Keeps.pure ()

theorem checkMoveSegment_keeps (seg : VmSegment) : Keeps P (checkMoveSegment env seg) :=
  (chunkOf_keeps h hneg _ seg).bind fun _ => Keeps.ite (fun _ => skipRange_keeps hneg 1) fun _ =>
    (blocksUp_keeps h hneg _ _ _ _).bind fun _ => Keeps.pure ()

theorem moveIterations_keeps (iterations p pe : ℕ) :
    Keeps P (moveIterations env iterations p pe) :=
  Keeps.foldlM (fun _ _ => oneBlock_keeps h hneg _ pe ()) ()

omit h hneg in
theorem forBlocks_keeps {body : ℕ → TestM arch Unit} (hbody : ∀ pe, Keeps P (body pe))
    (stop pe : ℕ) : Keeps P (forBlocks env stop body pe) := by
  have hpos := env.spinSize_pos
  induction hn : stop - pe using Nat.strongRecOn generalizing pe with
  | _ n ih =>
    rw [forBlocks]
    split
    · exact (hbody _).bind fun _ => ih _ (by omega) _ rfl
    · exact hbody stop

theorem moveSegment_keeps (iterations : ℕ) (seg : VmSegment) :
    Keeps P (moveSegment env iterations seg) :=
  (chunkOf_keeps h hneg _ seg).bind fun _ => Keeps.ite
    (fun _ => skipRange_keeps hneg iterations)
    fun _ => forBlocks_keeps (moveIterations_keeps h hneg iterations _) _ _

theorem testBlockMove_keeps (iterations : ℕ) : Keeps P (testBlockMove env iterations) := by
  refine (Keeps.foldlM (fun _ seg => fillMoveSegment_keeps h hneg seg) ()).bind fun _ => ?_
  refine (flushCaches_keeps hneg).bind fun _ => ?_
  refine (Keeps.foldlM (fun _ seg => moveSegment_keeps h hneg iterations seg) ()).bind fun _ => ?_
  exact (flushCaches_keeps hneg).bind fun _ =>
    Keeps.foldlM (fun _ seg => checkMoveSegment_keeps h hneg seg) ()

theorem busSegment_keeps (simdTier : Bool) (passNum iteration : ℕ) (second : Bool)
    (burstBlocks : ℕ) (hburst : 0 < burstBlocks) (seg : VmSegment × ℕ) :
    Keeps P (busSegment env simdTier passNum iteration second burstBlocks hburst seg) := by
  refine (chunkOf_keeps h hneg _ seg.1).bind fun c => Keeps.ite
    (fun _ => skipRange_keeps hneg 1) fun _ => ?_
  have hbody : Keeps P (if (splitChunk arch c).nbody = 0 then skipRange env 1
      else oneBlock env (fun _ _ => busBursts env simdTier passNum iteration second burstBlocks
        hburst (splitChunk arch c) seg.2) 0 ()) :=
    Keeps.ite (fun _ => skipRange_keeps hneg 1) fun _ => oneBlock_keeps h hneg _ 0 ()
  exact Keeps.ite (fun _ => (unlessDummy_keeps hneg _).bind fun _ => hbody) fun _ => hbody

theorem testBusStress_keeps (simdTier : Bool) (passNum iteration : ℕ) :
    Keeps P (testBusStress env simdTier passNum iteration) := by
  have hsweep : ∀ second, Keeps P
      (doSweep env simdTier passNum iteration second _ (busBurstBlocks_pos iteration)) :=
    fun second => Keeps.foldlM (fun _ seg => busSegment_keeps h hneg simdTier passNum iteration
      second _ _ seg) ()
  exact (hsweep false).bind fun _ => (flushCachesAll_keeps hneg).bind fun _ =>
    (hsweep true).bind fun _ => flushCachesAll_keeps hneg

theorem fadeDelay_keeps (sleepSecs : ℕ) : Keeps P (fadeDelay env sleepSecs) := by
  induction sleepSecs with
  | zero => exact Keeps.pure ()
  | succ n ih =>
    rw [fadeDelay, if_pos hneg]
    exact (Keeps.modify h.countTick).bind fun _ => (Keeps.pure ()).bind fun _ => ih

theorem testBitFade_keeps (passNum : ℕ) (lastStage : ℤ) (stage sleepSecs : ℕ) :
    Keeps P (testBitFade env passNum lastStage stage sleepSecs) := by
  rw [testBitFade]
  split
  · exact (sweepUp_keeps h hneg _ _ _).bind fun _ => flushCachesAll_keeps hneg
  · exact Keeps.ite (fun _ => fadeDelay_keeps h hneg sleepSecs) fun _ => Keeps.pure ()
  · exact sweepUp_keeps h hneg _ _ _

end

/-! ### `run_test` -/

/-- The assertion holds of the test, and there has been no wait. -/
def WithoutWait (P : TestState arch → Prop) (s : RunState arch) : Prop := P s.test ∧ s.barriers = 0

theorem callTest_keeps {m : TestM arch α} (hm : Keeps P m) :
    Keeps (WithoutWait P) (callTest m) := by
  refine Keeps.onPart (fun s hs => ?_) fun _ => rfl
  have hpart : (fun t => WithoutWait P { s with test := t }) = P :=
    funext fun _ => propext (and_iff_left hs.2)
  rwa [hpart]

section

variable (h : Undisturbed P) (hneg : env.myCpu < 0)

include hneg

theorem barrier_keeps : Keeps (WithoutWait P) (barrier env) :=
  Keeps.ite (fun hcpu => absurd hneg (not_lt.mpr hcpu)) fun _ => Keeps.pure ()

theorem barrierTest_keeps {m : TestM arch α} (hm : Keeps P m) :
    Keeps (WithoutWait P) (barrierTest env m) :=
  (barrier_keeps hneg).bind fun _ => callTest_keeps hm

include h

/-- All tests but the first one only do what a dummy run does. -/
theorem runCase_keeps {cfg : RunConfig arch} (htest : cfg.test ≠ 0) :
    Keeps (WithoutWait P) (runCase env cfg) := by
  have hfixed : ∀ iterations pattern1,
      Keeps (WithoutWait P) (runMovInvFixed env iterations pattern1) :=
    fun iterations pattern1 => (barrierTest_keeps hneg (testMovInvFixed_keeps h hneg _ _ _)).bind
      fun _ => barrierTest_keeps hneg (testMovInvFixed_keeps h hneg _ _ _)
  have hmodulo : ∀ prsgState offset, Keeps (WithoutWait P) (runModuloN env prsgState offset) :=
    fun prsgState offset =>
      (barrierTest_keeps hneg (testModuloN_keeps h hneg _ _ _ _ _ offset)).bind fun _ =>
        (barrierTest_keeps hneg (testModuloN_keeps h hneg _ _ _ _ _ offset)).bind fun _ =>
          Keeps.pure _
  have hwalk : ∀ iterations offset, Keeps (WithoutWait P) (runMovInvWalk1 env iterations offset) :=
    fun iterations offset =>
      (barrierTest_keeps hneg (testMovInvWalk1_keeps h hneg _ _ _)).bind fun _ =>
        barrierTest_keeps hneg (testMovInvWalk1_keeps h hneg _ _ _)
  rw [runCase]
  split
  · next hzero => exact absurd hzero htest
  · exact callTest_keeps (testOwnAddr1_keeps h hneg)
  · exact callTest_keeps (testOwnAddr2_keeps h hneg _)
  · exact Keeps.foldlM (fun _ _ => barrierTest_keeps hneg (testBusStress_keeps h hneg _ _ _)) ()
  · exact hfixed _ _
  · exact Keeps.foldlM (fun _ _ => barrierTest_keeps hneg (testMovInvRng_keeps h hneg _ _ _)) ()
  · exact (Keeps.foldlM (fun pattern1 _ => (hfixed _ pattern1).bind fun _ => Keeps.pure _) _).bind
      fun _ => Keeps.pure ()
  · exact (Keeps.foldlM (fun prsgState _ => Keeps.foldlM hmodulo prsgState) _).bind fun _ =>
      Keeps.pure ()
  · exact callTest_keeps (testBlockMove_keeps h hneg _)
  · exact Keeps.foldlM (fun _ offset => hwalk _ offset) ()
  · exact callTest_keeps (testBitFade_keeps h hneg _ _ _ _)
  · exact callTest_keeps (testRowhammer_keeps h hneg _ _)
  · exact Keeps.pure ()

omit h

theorem stackCanaryArm_keeps : Keeps P (stackCanaryArm env) :=
  Keeps.ite (fun _ => Keeps.pure ()) fun hcpu => absurd (.inl hneg) hcpu

end

/-! ### The sizing run -/

/-- `run_test(-1, ...)`. -/
def sizingRun (env : TestEnv arch) (cfg : RunConfig arch) (store : ℕ → Testword arch) :
    RunState arch :=
  ((Tests.runTest { env with myCpu := -1 } cfg).exec ⟨.init store, 0⟩).2

/-- A run has written to no word, reported nothing, waited at no barrier and accessed no element
of an array of the CPUs at index -1, which is the number the dummy run passes for the CPU. -/
structure RunState.Pure (store : ℕ → Testword arch) (s : RunState arch) : Prop where
  store : s.test.store = store
  log : s.test.log = []
  barriers : s.barriers = 0
  cpuSlots : (-1 : ℤ) ∉ s.test.cpuSlots

/-- What a dummy run leaves alone. -/
def LeftAlone (store : ℕ → Testword arch) (s : TestState arch) : Prop :=
  s.store = store ∧ s.log = [] ∧ (-1 : ℤ) ∉ s.cpuSlots

theorem undisturbed_leftAlone (store : ℕ → Testword arch) : Undisturbed (LeftAlone store) where
  countTick _ hs := hs
  useSlot s hs := by
    refine ⟨hs.1, hs.2.1, fun hmem => ?_⟩
    obtain hmem | hmem := List.mem_append.mp hmem
    · exact hs.2.2 hmem
    · exact absurd (List.mem_singleton.mp hmem) (by decide)

theorem undisturbed_used : Undisturbed fun s : TestState arch => (-1 : ℤ) ∈ s.cpuSlots where
  countTick _ hs := hs
  useSlot _ hs := List.mem_append_left _ hs

/-- The first test accesses `test_addr[-1]`. -/
theorem testAddrWalk1_used (hcpu : env.myCpu = -1) :
    Triple (fun _ => True) (testAddrWalk1 env) (fun _ s => (-1 : ℤ) ∈ s.cpuSlots)
      fun _ s => (-1 : ℤ) ∈ s.cpuSlots := by
  have hneg : env.myCpu < 0 := by
    rw [hcpu]
    decide
  have hslot : Triple (fun _ => True) (useCpuSlot env.myCpu)
      (fun _ (s : TestState arch) => (-1 : ℤ) ∈ s.cpuSlots) fun _ s => (-1 : ℤ) ∈ s.cpuSlots := by
    refine Triple.modify fun s _ => ?_
    rw [hcpu]
    exact List.mem_append_right _ (List.mem_singleton_self _)
  exact hslot.bind fun _ => (addrWalkRound_keeps undisturbed_used hneg _).bind fun _ =>
    addrWalkRound_keeps undisturbed_used hneg _

theorem runTest_used (hcpu : env.myCpu = -1) {cfg : RunConfig arch} (hzero : cfg.test = 0) :
    Triple (fun _ => True) (Tests.runTest env cfg) (fun _ s => (-1 : ℤ) ∈ s.test.cpuSlots)
      fun _ s => (-1 : ℤ) ∈ s.test.cpuSlots := by
  have harm : stackCanaryArm env = pure () := by
    rw [stackCanaryArm, hcpu]
    rfl
  have hbarrier : barrier env = pure () := by
    rw [barrier, hcpu]
    rfl
  have hcase : runCase env cfg = callTest (testAddrWalk1 env) := by
    simp only [runCase, hzero]
  rw [Tests.runTest, harm, hbarrier, hcase]
  have hcall : Triple (fun _ : RunState arch => True) (callTest (pure ())) (fun _ _ => True)
      fun _ s => (-1 : ℤ) ∈ s.test.cpuSlots :=
    Triple.onPart fun _ _ => Triple.pure fun _ _ => trivial
  refine hcall.bind fun _ => (Triple.pure (Q := fun _ _ => True) fun _ => id).bind
    fun _ => ?_
  exact Triple.onPart fun _ _ => (testAddrWalk1_used hcpu).pre fun _ _ => trivial

/-- **The purity of the sizing run.** It is pure unless the test is the first one.

This is for every number of a test, and those behind the last one are no tests at all. The window,
the memory, the stage, the iterations and the point at which the run is bailed out of are
arbitrary. -/
theorem pure_sizingRun_iff (env : TestEnv arch) (cfg : RunConfig arch)
    (store : ℕ → Testword arch) : (sizingRun env cfg store).Pure store ↔ cfg.test ≠ 0 := by
  constructor
  · intro hpure hzero
    exact hpure.cpuSlots ((runTest_used rfl hzero).final trivial (fun _ _ => id) fun _ _ => id)
  · intro htest
    have hneg : TestEnv.myCpu { env with myCpu := -1 } < 0 := show (-1 : ℤ) < 0 by decide
    have hkeeps : Keeps (WithoutWait (LeftAlone store))
        (Tests.runTest { env with myCpu := -1 } cfg) :=
      (callTest_keeps (stackCanaryArm_keeps hneg)).bind fun _ => (barrier_keeps hneg).bind fun _ =>
        runCase_keeps (undisturbed_leftAlone store) hneg htest
    obtain ⟨⟨hstore, hlog, hslots⟩, hbarriers⟩ :=
      hkeeps.final (s := ⟨.init store, 0⟩) ⟨⟨rfl, rfl, List.not_mem_nil⟩, rfl⟩
    exact ⟨hstore, hlog, hbarriers, hslots⟩

/-- Test 0. -/
def addressWalk : RunConfig .b64 where
  test := 0
  stage := 0
  iterations := 6
  passNum := 0
  lastStage := -1
  simdTier := true
  rdtsc := true
  tsc := fun _ => 0
  hammer := ⟨0, 64, fun _ => 0⟩

/-- Its sizing run resets `test_addr[-1]`. -/
theorem not_pure_addressWalk :
    ¬(sizingRun (sampleEnv fun _ => id) addressWalk fun _ => 0).Pure fun _ => 0 := by
  intro hpure
  exact hpure.cpuSlots ((runTest_used rfl rfl).final trivial (fun _ _ => id) fun _ _ => id)

end Memtest
