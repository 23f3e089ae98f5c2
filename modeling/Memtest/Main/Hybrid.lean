import Memtest.Main.Cpus
import Memtest.Tests.ChunkSpec
import Mathlib.Data.Set.Card

/-!
# Efficiency cores (`ap_enumerate` in `app/main.c`)

On a machine with efficiency cores these can be excluded from the tests. It is only when the CPUs
have been started that each of them finds out which kind of core it is, and sets its `cpu_state` to
`CPU_STATE_DISABLED` if it is excluded. By then `global_init` has counted it as one of the CPUs that
take part, and it goes on to the main loop like the others.

What is read after that is one or the other: `select_next_master` goes by `cpu_state`, the number of
CPUs at the barriers and the division into chunks by the counts of `global_init`, and whether a CPU
takes part in a parallel test by neither of them.
-/

namespace Memtest

/-- `core_type_t`. -/
inductive CoreType
  | unknown
  | pcore
  | ecore
  deriving DecidableEq, Repr

/-- `cpu_state_t`. -/
inductive CpuStatus
  | disabled
  | enabled
  | running
  deriving DecidableEq, Repr

/-- A machine that may have cores of different types. Here `main.disabled` says which CPUs the user
has not selected, and `coreType` what `get_ap_hybrid_type` returns on a CPU. A processor that has
cores of different types is one with long mode. -/
structure HybridConfig where
  main : MainConfig
  isHybrid : Bool
  coreType : ℕ → CoreType
  excludeEcores : Bool
  cpuNumToProximityDomainIdx : ℕ → ℕ
  hybrid_longMode : isHybrid = true → main.flags = ⟨true, true⟩

namespace HybridConfig

variable (h : HybridConfig)

/-! ### Starting the CPUs -/

/-- `ap_enumerate`. -/
def apEnumerate (myCpu : ℕ) (cpuState : ℕ → CpuStatus) : ℕ → CpuStatus :=
  if h.isHybrid = false then cpuState
  else if h.coreType myCpu = .ecore ∧ h.excludeEcores = true then
    Function.update cpuState myCpu .disabled
  else cpuState

/-- What an AP does with `cpu_state` before it comes to the main loop. -/
def startAp (cpuState : ℕ → CpuStatus) (myCpu : ℕ) : ℕ → CpuStatus :=
  h.apEnumerate myCpu (Function.update cpuState myCpu .running)

/-- `cpu_state` when `smp_start` begins to start the APs. -/
def beforeStart : ℕ → CpuStatus :=
  Function.update (fun cpu => if h.main.disabled cpu then .disabled else .enabled) 0 .running

/-- An order in which the APs that are selected start. -/
structure StartOrder where
  order : List ℕ
  perm : order.Perm (h.main.enabledCpus.filter fun cpu => cpu ≠ 0)

/-- `cpu_state` when all CPUs have come to the main loop. -/
def cpuState (o : h.StartOrder) : ℕ → CpuStatus := o.order.foldl h.startAp h.beforeStart

/-- A core that is excluded. -/
def Excluded (cpu : ℕ) : Prop :=
  h.isHybrid = true ∧ h.coreType cpu = .ecore ∧ h.excludeEcores = true

instance (cpu : ℕ) : Decidable (h.Excluded cpu) := inferInstanceAs (Decidable (_ ∧ _ ∧ _))

end HybridConfig

variable {h : HybridConfig} {o : h.StartOrder} {cpu : ℕ}

namespace HybridConfig

theorem startAp_apply (cpuState : ℕ → CpuStatus) (myCpu cpu : ℕ) :
    h.startAp cpuState myCpu cpu =
      if cpu = myCpu then (if h.Excluded cpu then .disabled else .running) else cpuState cpu := by
  rw [startAp, apEnumerate]
  by_cases hcpu : cpu = myCpu
  · subst hcpu
    rw [if_pos rfl]
    by_cases hhybrid : h.isHybrid = true
    · rw [if_neg (by simp [hhybrid])]
      by_cases hecore : h.coreType cpu = .ecore ∧ h.excludeEcores = true
      · rw [if_pos hecore, if_pos ⟨hhybrid, hecore⟩, Function.update_self]
      · rw [if_neg hecore, if_neg fun hexcluded => hecore hexcluded.2, Function.update_self]
    · rw [if_pos (by simpa using hhybrid), if_neg fun hexcluded => hhybrid hexcluded.1,
        Function.update_self]
  · rw [if_neg hcpu]
    split_ifs <;> simp [Function.update_of_ne hcpu]

theorem foldl_startAp (order : List ℕ) (cpuState : ℕ → CpuStatus) (cpu : ℕ) :
    order.foldl h.startAp cpuState cpu =
      if cpu ∈ order then (if h.Excluded cpu then .disabled else .running) else cpuState cpu := by
  induction order generalizing cpuState with
  | nil => rfl
  | cons c order ih =>
    rw [List.foldl_cons, ih, startAp_apply]
    simp only [List.mem_cons]
    by_cases hmem : cpu ∈ order <;> by_cases hcpu : cpu = c <;> simp [hmem, hcpu]

/-- Whatever the order in which they start, the CPUs that end up disabled are those that are not
selected, and the APs that are excluded. -/
theorem cpuState_eq_disabled_iff (o : h.StartOrder) (hlt : cpu < h.main.numAvailableCpus) :
    h.cpuState o cpu = .disabled ↔
      cpu ≠ 0 ∧ (h.main.disabled cpu = true ∨ h.Excluded cpu) := by
  have hmem : cpu ∈ o.order ↔ cpu ≠ 0 ∧ h.main.disabled cpu = false := by
    rw [o.perm.mem_iff, List.mem_filter, MainConfig.mem_enabledCpus]
    simp [hlt, and_comm]
  rw [cpuState, foldl_startAp, beforeStart]
  by_cases hzero : cpu = 0
  · subst hzero
    rw [if_neg fun hin => (hmem.mp hin).1 rfl, Function.update_self]
    simp
  · rw [Function.update_of_ne hzero]
    cases hdisabled : h.main.disabled cpu with
    | true => simp [hmem, hdisabled, hzero]
    | false =>
      rw [if_pos (hmem.mpr ⟨hzero, hdisabled⟩)]
      by_cases hexcluded : h.Excluded cpu <;> simp [hexcluded, hzero]

/-! ### The main loop -/

/-- The configuration of the main loop with `cpu_state` as it is then. -/
def afterStart (h : HybridConfig) (o : h.StartOrder) : MainConfig :=
  { h.main with
    disabled := fun cpu => decide (h.cpuState o cpu = .disabled)
    bsp_enabled := decide_eq_false fun heq =>
      ((cpuState_eq_disabled_iff o h.main.numAvailableCpus_pos).mp heq).1 rfl }

/-- What a CPU does from one wait to the next. The code behind the last wait of a trip goes by
`cpu_state`, the rest by the counts of `global_init`. -/
def hybridSegment (h : HybridConfig) (o : h.StartOrder) (inp : Input) (cpu : ℕ) (s : MainState)
    (l : CpuState) : Option (MainState × CpuState) :=
  cpuSegment (if l.point = .testDone then h.afterStart o else h.main) inp cpu s l

/-- A round. All CPUs that were selected take part in it, those that have found out that they are
excluded too: they have set their state, but go on to the main loop like the others. -/
def hybridStep (h : HybridConfig) (o : h.StartOrder) (r : CpuRound h.main) :
    MainState × (ℕ → CpuState) → Option (MainState × (ℕ → CpuState)) :=
  Lockstep.round (h.hybridSegment o r.input) r.order

end HybridConfig

/-- A CPU in front of the third wait of a window calls `run_test` behind it. -/
def CallsRunTest (cfg : MainConfig) (s : MainState) (l : CpuState) : Prop :=
  l.point = .windowMapped ∧ l.iAmActive = true ∧ s.vm.numMappedPages ≠ 0 ∧
    if s.dummyRun then l.iAmMaster = true
    else (mapFirst cfg.flags s.vm s.mappedWindow).isSome = true

instance (cfg : MainConfig) (s : MainState) (l : CpuState) : Decidable (CallsRunTest cfg s l) :=
  inferInstanceAs (Decidable (_ ∧ _ ∧ _ ∧ _))

namespace HybridConfig

/-- A CPU calls `run_test` in the next round. -/
def TakesPart (h : HybridConfig) (t : MainState × (ℕ → CpuState)) (cpu : ℕ) : Prop :=
  cpu ∈ h.main.enabledCpus ∧ CallsRunTest h.main t.1 (t.2 cpu)

/-- What `calculate_chunk` reads. -/
def chunkConfig (h : HybridConfig) (s : MainState) : ChunkConfig :=
  { parallelConfig h.main.numa.enableNuma h.main.numAvailableCpus h.cpuNumToProximityDomainIdx
      fun cpu => !h.main.disabled cpu with
    numActiveCpus := s.numActiveCpus }

/-- The CPUs that take part in a test. -/
def testingCpus (h : HybridConfig) (t : MainState × (ℕ → CpuState)) : Set ℕ :=
  {cpu | h.TakesPart t cpu}

/-- The CPUs among which a segment is shared: those that take part, with NUMA those of them in its
proximity domain, unless a single CPU takes part. -/
def chunkCpus (h : HybridConfig) (t : MainState × (ℕ → CpuState)) (seg : VmSegment) : Set ℕ :=
  {cpu | h.TakesPart t cpu ∧ (h.main.numa.enableNuma = true → t.1.numActiveCpus ≠ 1 →
    (h.chunkConfig t.1).domainOf cpu = seg.proximityDomainIdx)}

/-- The chunks of the CPUs that take part cover a segment up to less than an alignment unit for each
of those it is shared among. -/
def Covered (h : HybridConfig) (t : MainState × (ℕ → CpuState)) (arch : Arch) (seg : VmSegment)
    (chunkAlign : ℕ) : Prop :=
  ∃ chunk : ℕ → Chunk,
    (∀ cpu ∈ h.testingCpus t,
      calculateChunk arch (h.chunkConfig t.1) cpu seg chunkAlign = some (chunk cpu)) ∧
    ∃ top, (∀ a, (∃ cpu ∈ h.testingCpus t, a ∈ (chunk cpu).bytes arch) ↔
        seg.start ≤ a ∧ a < top) ∧
      top ≤ seg.stop + arch.wordBytes ∧
      seg.stop + arch.wordBytes < top + (h.chunkCpus t seg).ncard * chunkAlign

/-- No CPU that is disabled takes part in a test; those that do are as many as the barrier waits
for, and they share every segment in a proximity domain of the window. For the last of these the
segment is any of whole words with a start that suits the alignment, so the chunks need not be
those of one test. -/
structure TestsShared (h : HybridConfig) (o : h.StartOrder) (t : MainState × (ℕ → CpuState)) :
    Prop where
  included : ∀ cpu ∈ h.testingCpus t, h.cpuState o cpu ≠ .disabled
  active : t.1.dummyRun = false → (h.testingCpus t).Nonempty →
    t.1.numActiveCpus = (h.testingCpus t).ncard
  covered : t.1.dummyRun = false → (h.testingCpus t).Nonempty →
    ∀ (arch : Arch) (seg : VmSegment) (chunkAlign : ℕ),
      seg.proximityDomainIdx ∈ t.1.vm.vmMap.map VmSegment.proximityDomainIdx →
      SegmentOk arch seg → AlignOk arch chunkAlign → chunkAlign ∣ seg.start →
      h.Covered t arch seg chunkAlign

end HybridConfig

/-- The local variable `parallel_test`. -/
def MainConfig.parallelTest (cfg : MainConfig) (s : MainState) : Bool :=
  !s.dummyRun && s.cpuMode == .par && (cfg.testPattern s.testNum).cpuMode == .par

namespace HybridConfig

/-- A test is about to be run on all CPUs: they are at the last wait in front of `run_test`, in a
window with pages to test, and neither the run nor the mode nor the test itself makes it one for
the master alone. -/
structure RunsParallel (h : HybridConfig) (t : MainState × (ℕ → CpuState)) : Prop where
  point : (t.2 0).point = .windowMapped
  mapped : t.1.vm.numMappedPages ≠ 0
  parallelTest : h.main.parallelTest t.1 = true

/-- One of the CPUs that have been selected is excluded. CPU 0 is never asked which kind of core
it is. -/
def HasExcluded (h : HybridConfig) : Prop := ∃ cpu ∈ h.main.enabledCpus, cpu ≠ 0 ∧ h.Excluded cpu

/-- With NUMA, and more than one CPU selected, none of them is in the proximity domain of some
segment of the window. Nobody tests this segment then, whatever kind of cores there are; with a
single CPU the division by domains is not made. -/
structure DomainWithoutCpu (h : HybridConfig) (s : MainState) : Prop where
  numa : h.main.numa.enableNuma = true
  cpus : h.main.enabledCpus.length ≠ 1
  segment : ∃ seg ∈ s.vm.vmMap, ∀ cpu ∈ h.main.enabledCpus,
    smpGetProximityDomainIdx h.main.numAvailableCpus h.cpuNumToProximityDomainIdx cpu ≠
      seg.proximityDomainIdx

end HybridConfig

/-! ### What a test keeps -/

section

variable {cfg : MainConfig} {inp : Input} {s s' : MainState} {l l' : CpuState} {cpu : ℕ}

/-- What the code between two waits of a test does not change, as long as no restart is asked
for. -/
structure SameTest (s s' : MainState) : Prop where
  masterCpu : s'.masterCpu = s.masterCpu
  numActiveCpus : s'.numActiveCpus = s.numActiveCpus
  dummyRun : s'.dummyRun = s.dummyRun
  testNum : s'.testNum = s.testNum
  cpuMode : s'.restart = true ∨ s'.cpuMode = s.cpuMode
  restart : s.restart = true → s'.restart = true

theorem SameTest.refl (s : MainState) : SameTest s s := ⟨rfl, rfl, rfl, rfl, .inr rfl, id⟩

theorem SameTest.trans {s'' : MainState} (h : SameTest s s') (h' : SameTest s' s'') :
    SameTest s s'' where
  masterCpu := h'.masterCpu.trans h.masterCpu
  numActiveCpus := h'.numActiveCpus.trans h.numActiveCpus
  dummyRun := h'.dummyRun.trans h.dummyRun
  testNum := h'.testNum.trans h.testNum
  cpuMode := h.cpuMode.elim (fun hr => .inl (h'.restart hr)) fun hm =>
    h'.cpuMode.imp_right fun hm' => hm'.trans hm
  restart hr := h'.restart (h.restart hr)

theorem TestStep.sameTest (h : TestStep inp s s') (hnum : s'.numActiveCpus = s.numActiveCpus) :
    SameTest s s' :=
  ⟨h.masterCpu, hnum, h.dummyRun, h.testNum, h.keep.imp_right And.right, h.restart⟩

theorem SameTest.parallelTest (h : SameTest s s') (cfg : MainConfig) :
    s'.restart = true ∨ cfg.parallelTest s' = cfg.parallelTest s :=
  h.cpuMode.imp_right fun hmode => by
    rw [MainConfig.parallelTest, MainConfig.parallelTest, h.dummyRun, h.testNum, hmode]

theorem chooseWindow_numActiveCpus (cfg : MainConfig) (s : MainState) (l : CpuState) :
    (chooseWindow cfg s l).1.numActiveCpus = s.numActiveCpus := by
  rw [chooseWindow]
  split_ifs <;> rfl

theorem setupWindow_numActiveCpus (cfg : MainConfig) (s : MainState) (l : CpuState) :
    (setupWindow cfg s l).1.numActiveCpus = s.numActiveCpus := by
  rw [setupWindow]
  split_ifs <;> rfl

theorem runTest_numActiveCpus (cfg : MainConfig) (menus : List (List MenuAction)) (s : MainState)
    (l : CpuState) : (runTest cfg menus s l).numActiveCpus = s.numActiveCpus :=
  (congrArg MainState.numActiveCpus (MenuStep.checkInput cfg _ menus).outside :)

theorem testWindow_numActiveCpus (cfg : MainConfig) (inp : Input) (s : MainState) (l : CpuState) :
    (testWindow cfg inp s l).1.numActiveCpus = s.numActiveCpus := by
  rw [testWindow]
  split_ifs
  · rfl
  · rfl
  · rfl
  · exact runTest_numActiveCpus cfg [] s l
  · rfl
  · split
    · rfl
    · exact runTest_numActiveCpus cfg inp.menus _ l
  · split <;> rfl

/-- The waits in the loop of `test_all_windows`. -/
def WaitPoint.InWindows : WaitPoint → Prop
  | .windowEntry | .windowChosen | .windowMapped => True
  | _ => False

/-- What a CPU does in the loop of `test_all_windows`. -/
theorem cpuSegment_inWindows (hpoint : l.point.InWindows)
    (h : cpuSegment cfg inp cpu s l = some (s', l')) :
    SameTest s s' ∧ ((s.restart = true → s.bail = true) → s'.restart = true → s'.bail = true) ∧
      l'.iAmMaster = l.iAmMaster ∧ l'.iAmActive = l.iAmActive := by
  cases hp : l.point with
  | loopTop | testReady | testDone | runAt | finished =>
    exact absurd hpoint (by simp [hp, WaitPoint.InWindows])
  | windowEntry =>
    have hsame := (TestStep.chooseWindow cfg inp s l).1.sameTest
      (chooseWindow_numActiveCpus cfg s l)
    obtain ⟨hrestart, hbail, -⟩ := chooseWindow_flags cfg s l
    have hl' := (chooseWindow_spec cfg s l).2
    simp only [cpuSegment, segment, hp, Option.some.injEq] at h
    rw [h] at hsame hrestart hbail hl'
    refine ⟨hsame, fun hs hr => hbail.trans (hs (hrestart.symm.trans hr)), ?_⟩
    rw [show l' = _ from hl']
    exact ⟨rfl, rfl⟩
  | windowChosen =>
    have hsame := (TestStep.setupWindow cfg inp s l).1.sameTest (setupWindow_numActiveCpus cfg s l)
    obtain ⟨hrestart, hbail⟩ := setupWindow_flags cfg s l
    have hl' := (setupWindow_spec cfg s l).2
    simp only [cpuSegment, segment, hp, Option.some.injEq] at h
    rw [h] at hsame hrestart hbail hl'
    refine ⟨hsame, fun hs hr => hbail.trans (hs (hrestart.symm.trans hr)), ?_⟩
    rw [show l' = _ from hl']
    exact ⟨rfl, rfl⟩
  | windowMapped =>
    have hsame := (TestStep.testWindow cfg inp s l).1.sameTest
      (testWindow_numActiveCpus cfg inp s l)
    have hbail := fun hs => (testWindow_flags cfg inp s l hs).1
    have hl' := (testWindow_spec cfg inp s l).2
    simp only [cpuSegment, segment, hp, Option.some.injEq] at h
    rw [h] at hsame hbail hl'
    refine ⟨hsame, hbail, ?_⟩
    rw [show l' = _ from hl']
    exact ⟨rfl, rfl⟩

/-- Who is the master in a test, who is active, and how many are. -/
structure Roles (cfg : MainConfig) (s : MainState) (ls : ℕ → CpuState) : Prop where
  numActiveCpus : s.numActiveCpus = if cfg.parallelTest s then cfg.enabledCpus.length else 1
  iAmMaster : ∀ cpu ∈ cfg.enabledCpus, (ls cpu).iAmMaster = (cpu == s.masterCpu)
  iAmActive : ∀ cpu ∈ cfg.enabledCpus, (ls cpu).iAmActive =
    (cpu == s.masterCpu || cfg.parallelTest s)

variable {r : CpuRound cfg} {ls ls' : ℕ → CpuState} {point : WaitPoint} {loadAddr : LoadAddr}

/-- A round in the loop of `test_all_windows`. -/
theorem cpusStep_inWindows (h : Together cfg ls point loadAddr) (hpoint : point.InWindows)
    (hbail : s.restart = true → s.bail = true) (hroles : s.restart = true ∨ Roles cfg s ls)
    (hstep : cpusStep cfg r (s, ls) = some (s', ls')) :
    s'.masterCpu = s.masterCpu ∧ (s'.restart = true → s'.bail = true) ∧
      (s'.restart = true ∨ Roles cfg s' ls') := by
  obtain ⟨⟨hsame, hbail'⟩, hls⟩ := cpusStep_spec
    (I := fun u => SameTest s u ∧ (u.restart = true → u.bail = true))
    (Q := fun cpu l' => l'.iAmMaster = (ls cpu).iAmMaster ∧ l'.iAmActive = (ls cpu).iAmActive)
    hstep ⟨.refl s, hbail⟩ fun cpu hcpu u u' l' hu hseg => by
      obtain ⟨hsame, hkeep, hl'⟩ :=
        cpuSegment_inWindows ((h.point cpu hcpu).symm ▸ hpoint) hseg
      exact ⟨⟨hu.1.trans hsame, hkeep hu.2⟩, hl'⟩
  refine ⟨hsame.masterCpu, hbail', ?_⟩
  obtain hrestart | hroles := hroles
  · exact .inl (hsame.restart hrestart)
  · refine (hsame.parallelTest cfg).imp_right fun hparallel => ⟨?_, fun cpu hcpu => ?_,
      fun cpu hcpu => ?_⟩
    · rw [hsame.numActiveCpus, hparallel, hroles.numActiveCpus]
    · rw [(hls cpu hcpu).1, hsame.masterCpu, hroles.iAmMaster cpu hcpu]
    · rw [(hls cpu hcpu).2, hsame.masterCpu, hparallel, hroles.iAmActive cpu hcpu]

/-- The role a CPU takes when it enters a test. -/
theorem enterTest_roles (cfg : MainConfig) (isMaster : Bool) (s : MainState) (l : CpuState) :
    (enterTest cfg isMaster s l).2.iAmMaster = isMaster ∧
      (enterTest cfg isMaster s l).2.iAmActive = (isMaster || cfg.parallelTest s) ∧
      (enterTest cfg isMaster s l).1.numActiveCpus =
        if isMaster then if cfg.parallelTest s then cfg.enabledCpus.length else 1
        else s.numActiveCpus := by
  rw [enterTest]
  split_ifs <;> exact ⟨rfl, rfl, by simp_all [MainConfig.parallelTest]⟩

/-- A step of a CPU that enters an enabled test. -/
theorem cpuSegment_testReady (hp : l.point = .testReady) (henabled : s.enabled s.testNum = true)
    (h : cpuSegment cfg inp cpu s l = some (s', l')) :
    (∃ log, s' = { s with log := log, numActiveCpus := s'.numActiveCpus }) ∧
      s'.numActiveCpus = (if cpu = s.masterCpu then
        if cfg.parallelTest s then cfg.enabledCpus.length else 1 else s.numActiveCpus) ∧
      l'.iAmMaster = (cpu == s.masterCpu) ∧
      l'.iAmActive = (cpu == s.masterCpu || cfg.parallelTest s) := by
  obtain ⟨hmaster, hactive, hnum⟩ :=
    enterTest_roles cfg (cpu == s.masterCpu) (s.record (.indexTest s.testNum)) l
  obtain ⟨hsame, -, -⟩ :=
    enterTest_spec cfg (cpu == s.masterCpu) (s.record (.indexTest s.testNum)) l
  have hrecord : (s.record (.indexTest s.testNum)).enabled
      (s.record (.indexTest s.testNum)).testNum = true := henabled
  simp only [cpuSegment, segment, hp, Option.some.injEq] at h
  rw [if_pos hrecord] at h
  rw [h] at hmaster hactive hnum hsame
  refine ⟨⟨_, hsame⟩, ?_, hmaster, hactive⟩
  rw [show s'.numActiveCpus = _ from hnum]
  simp only [beq_iff_eq]
  rfl

/-- The CPUs enter a test, and each of them takes its role. -/
theorem cpusStep_testReady (h : Together cfg ls .testReady loadAddr)
    (hmaster : s.masterCpu ∈ cfg.enabledCpus) (henabled : s.enabled s.testNum = true)
    (hstep : cpusStep cfg r (s, ls) = some (s', ls')) :
    s'.masterCpu = s.masterCpu ∧ s'.restart = s.restart ∧ Roles cfg s' ls' := by
  let Same (u : MainState) : Prop :=
    ∃ log numActiveCpus, u = { s with log := log, numActiveCpus := numActiveCpus }
  have hsegment : ∀ cpu ∈ cfg.enabledCpus, ∀ u u' l', Same u →
      cpuSegment cfg r.input cpu u (ls cpu) = some (u', l') →
      Same u' ∧ u'.numActiveCpus = (if cpu = s.masterCpu then
        if cfg.parallelTest s then cfg.enabledCpus.length else 1 else u.numActiveCpus) ∧
      l'.iAmMaster = (cpu == s.masterCpu) ∧
      l'.iAmActive = (cpu == s.masterCpu || cfg.parallelTest s) := by
    rintro cpu hcpu _ u' l' ⟨log, numActiveCpus, rfl⟩ hseg
    obtain ⟨⟨log', hsame⟩, hrest⟩ := cpuSegment_testReady
      (s := { s with log := log, numActiveCpus := numActiveCpus }) (h.point cpu hcpu) henabled hseg
    exact ⟨⟨log', _, hsame⟩, hrest⟩
  have hsame : Same s := ⟨s.log, s.numActiveCpus, rfl⟩
  have hspec := cpusStep_spec
    (Q := fun cpu l' => l'.iAmMaster = (cpu == s.masterCpu) ∧
      l'.iAmActive = (cpu == s.masterCpu || cfg.parallelTest s)) hstep hsame
    fun cpu hcpu u u' l' hu hseg =>
      have hstep := hsegment cpu hcpu u u' l' hu hseg
      ⟨hstep.1, hstep.2.2⟩
  -- the master sets the number, and no other CPU changes it
  have hnum : s'.numActiveCpus = if cfg.parallelTest s then cfg.enabledCpus.length else 1 := by
    refine Lockstep.round_establish (I := Same)
      (J := fun u => u.numActiveCpus = if cfg.parallelTest s then cfg.enabledCpus.length else 1)
      (MainConfig.nodup_order r) (r.perm.mem_iff.mpr hmaster)
      (fun cpu hcpu u u' l' hu hseg => ?_) (fun u u' l' hu hseg => ?_) hsame hstep
    · obtain ⟨hu', hnum, -⟩ := hsegment cpu (r.perm.mem_iff.mp hcpu) u u' l' hu hseg
      refine ⟨hu', fun hJ => ?_⟩
      rw [hnum, hJ, ite_self]
    · obtain ⟨-, hnum, -⟩ := hsegment _ hmaster u u' l' hu hseg
      rw [hnum, if_pos rfl]
  obtain ⟨⟨log, numActiveCpus, rfl⟩, hls⟩ := hspec
  exact ⟨rfl, rfl, hnum, fun cpu hcpu => (hls cpu hcpu).1, fun cpu hcpu => (hls cpu hcpu).2⟩

end

/-! ### The run -/

namespace HybridConfig

section

variable {r : CpuRound h.main} {s s' : MainState} {ls ls' : ℕ → CpuState} {point : WaitPoint}
  {loadAddr : LoadAddr}

/-- The master is a CPU that is not disabled. -/
def MasterOk (h : HybridConfig) (o : h.StartOrder) (s : MainState) : Prop :=
  s.masterCpu < h.main.numAvailableCpus ∧ (h.afterStart o).disabled s.masterCpu = false

/-- Nothing is excluded behind the master's back, the CPUs have come together to one point, and in a
test they have their roles. -/
structure Consistent (h : HybridConfig) (o : h.StartOrder) (s : MainState) (ls : ℕ → CpuState)
    (point : WaitPoint) (loadAddr : LoadAddr) : Prop where
  master : h.MasterOk o s
  together : Together h.main ls point loadAddr
  bail : s.restart = true → s.bail = true
  restart : s.restart = true → point = .windowEntry ∨ point = .testDone
  roles : point.InWindows → s.restart = true ∨ Roles h.main s ls

/-- CPU 0 has finished, and the other CPUs are in no test. -/
def Finished (h : HybridConfig) (ls : ℕ → CpuState) : Prop :=
  (ls 0).point = .finished ∧
    ∀ cpu ∈ h.main.enabledCpus, (ls cpu).point = .loopTop ∨ (ls cpu).point = .finished

theorem MasterOk.mem_enabledCpus (hs : h.MasterOk o s) : s.masterCpu ∈ h.main.enabledCpus := by
  refine MainConfig.mem_enabledCpus.mpr ⟨hs.1, ?_⟩
  have hstate := of_decide_eq_false hs.2
  rw [cpuState_eq_disabled_iff o hs.1] at hstate
  obtain hzero | hne := eq_or_ne s.masterCpu 0
  · rw [hzero]
    exact h.main.bsp_enabled
  · simpa using fun hdisabled => hstate ⟨hne, .inl hdisabled⟩

/-- A state without a restart. -/
theorem Consistent.of_restart (hs : h.MasterOk o s) (htogether : Together h.main ls point loadAddr)
    (hrestart : s.restart = false) (hroles : point.InWindows → Roles h.main s ls) :
    h.Consistent o s ls point loadAddr where
  master := hs
  together := htogether
  bail hr := absurd (hr.symm.trans hrestart) nofun
  restart hr := absurd (hr.symm.trans hrestart) nofun
  roles hpoint := .inr (hroles hpoint)

theorem Consistent.restart_eq (hc : h.Consistent o s ls point loadAddr)
    (hentry : point ≠ .windowEntry) (hdone : point ≠ .testDone) : s.restart = false := by
  by_contra hrestart
  exact (hc.restart (by simpa using hrestart)).elim hentry hdone

/-- Behind any wait but the last one of a trip the CPUs run on as they were started. -/
theorem hybridStep_eq (hpoint : ∀ cpu ∈ h.main.enabledCpus, (ls cpu).point ≠ .testDone) :
    h.hybridStep o r (s, ls) = cpusStep h.main r (s, ls) :=
  Lockstep.round_congr (MainConfig.nodup_order r) fun cpu hcpu u => by
    rw [hybridSegment, if_neg (hpoint cpu (r.perm.mem_iff.mp hcpu))]

/-- A processor with long mode maps any window. -/
theorem isSome_mapFirst (hhybrid : h.isHybrid = true) (vm : VmMapState) (mappedWindow : ℕ) :
    (mapFirst h.main.flags vm mappedWindow).isSome = true := by
  rw [mapFirst, mapWindow, h.hybrid_longMode hhybrid]
  split_ifs <;> simp_all

theorem afterWindow_eq (hhybrid : h.isHybrid = true) (s : MainState) (iAmActive : Bool) :
    afterWindow h.main s iAmActive = loopPoint h.main s := by
  rw [afterWindow, if_neg]
  rintro ⟨-, -, -, hnone⟩
  have hsome := isSome_mapFirst hhybrid s.vm s.mappedWindow
  rw [Option.isNone_iff_eq_none] at hnone
  rw [hnone] at hsome
  exact absurd hsome Bool.false_ne_true

/-- A round in which no CPU changes the master or asks for a restart. -/
theorem cpusStep_quiet (hpoint : ∀ cpu ∈ h.main.enabledCpus, (ls cpu).point = point)
    (hsegment : ∀ cpu u u' l l', l.point = point →
      cpuSegment h.main r.input cpu u l = some (u', l') →
      u'.restart = u.restart ∧ u'.masterCpu = u.masterCpu)
    (hstep : cpusStep h.main r (s, ls) = some (s', ls')) :
    s'.restart = s.restart ∧ s'.masterCpu = s.masterCpu := by
  have hspec := cpusStep_spec
    (I := fun u => u.restart = s.restart ∧ u.masterCpu = s.masterCpu) (Q := fun _ _ => True)
    hstep ⟨rfl, rfl⟩ fun cpu hcpu u u' l' hu hseg => by
      obtain ⟨hr, hm⟩ := hsegment cpu u u' (ls cpu) l' (hpoint cpu hcpu) hseg
      exact ⟨⟨hr.trans hu.1, hm.trans hu.2⟩, trivial⟩
  exact hspec.1

/-- A round outside the loop of `test_all_windows`. -/
theorem Consistent.outsideWindows {point' : WaitPoint} {loadAddr' : LoadAddr}
    (hc : h.Consistent o s ls point loadAddr) (hrestart : s.restart = false)
    (htogether : Together h.main ls' point' loadAddr') (hpoint' : ¬point'.InWindows)
    (hquiet : s'.restart = s.restart ∧ s'.masterCpu = s.masterCpu) :
    h.Consistent o s' ls' point' loadAddr' := by
  have hmaster : h.MasterOk o s' := by
    rw [MasterOk, hquiet.2]
    exact hc.master
  exact .of_restart hmaster htogether (hquiet.1.trans hrestart) fun hin => absurd hin hpoint'

/-- A round in the loop of `test_all_windows`. -/
theorem Consistent.inWindows {point' : WaitPoint}
    (hc : h.Consistent o s ls point loadAddr) (hpoint : point.InWindows)
    (htogether : Together h.main ls' point' loadAddr)
    (hrestart' : s'.restart = true → point' = .windowEntry ∨ point' = .testDone)
    (hstep : cpusStep h.main r (s, ls) = some (s', ls')) :
    h.Consistent o s' ls' point' loadAddr := by
  obtain ⟨hmaster, hbail, hroles⟩ :=
    cpusStep_inWindows hc.together hpoint hc.bail (hc.roles hpoint) hstep
  refine ⟨?_, htogether, hbail, hrestart', fun _ => hroles⟩
  rw [MasterOk, hmaster]
  exact hc.master

/-- The CPUs in front of a trip. -/
theorem Consistent.loopTop (hc : h.Consistent o s ls .loopTop loadAddr)
    (hstep : cpusStep h.main r (s, ls) = some (s', ls')) :
    h.Consistent o s' ls' .testReady loadAddr := by
  refine hc.outsideWindows (hc.restart_eq nofun nofun) (hc.together.loopTop hstep) id
    (cpusStep_quiet hc.together.point (fun cpu u u' l l' hl hseg => ?_) hstep)
  simp only [cpuSegment, segment, hl, Option.some.injEq, Prod.mk.injEq] at hseg
  rw [← hseg.1]
  split_ifs
  · exact prologue_flags r.input.beyond u
  · exact ⟨rfl, rfl⟩

/-- The CPUs in front of a test. -/
theorem Consistent.testReady (hc : h.Consistent o s ls .testReady loadAddr)
    (hstep : cpusStep h.main r (s, ls) = some (s', ls')) :
    ∃ point', h.Consistent o s' ls' point' loadAddr := by
  have hrestart := hc.restart_eq nofun nofun
  have htogether := hc.together.testReady hstep
  by_cases henabled : s.enabled s.testNum = true
  · rw [if_pos henabled] at htogether
    obtain ⟨hmaster, hr, hroles⟩ :=
      cpusStep_testReady hc.together hc.master.mem_enabledCpus henabled hstep
    have hok : h.MasterOk o s' := by
      rw [MasterOk, hmaster]
      exact hc.master
    exact ⟨_, .of_restart hok htogether (hr.trans hrestart) fun _ => hroles⟩
  · rw [if_neg henabled] at htogether
    refine ⟨_, hc.outsideWindows hrestart htogether id
      (cpusStep_quiet hc.together.point (fun cpu u u' l l' hl hseg => ?_) hstep)⟩
    obtain ⟨hsame, -, -⟩ :=
      enterTest_spec h.main (cpu == u.masterCpu) (u.record (.indexTest u.testNum)) l
    simp only [cpuSegment, segment, hl, Option.some.injEq] at hseg
    split_ifs at hseg
    · rw [hseg] at hsame
      exact ⟨(congrArg MainState.restart hsame :), (congrArg MainState.masterCpu hsame :)⟩
    · rw [← (Prod.mk.inj hseg).1]
      exact ⟨rfl, rfl⟩

/-- The CPUs in front of a window. -/
theorem Consistent.windowEntry (hc : h.Consistent o s ls .windowEntry loadAddr)
    (hstep : cpusStep h.main r (s, ls) = some (s', ls')) :
    ∃ point', h.Consistent o s' ls' point' loadAddr := by
  have hquiet := cpusStep_quiet hc.together.point (fun cpu u u' l l' hl hseg => by
    obtain ⟨hr, -, -⟩ := chooseWindow_flags h.main u l
    have hm := (TestStep.chooseWindow h.main r.input u l).1.masterCpu
    simp only [cpuSegment, segment, hl, Option.some.injEq] at hseg
    rw [hseg] at hr hm
    exact ⟨hr, hm⟩) hstep
  refine ⟨_, hc.inWindows trivial (hc.together.windowEntry hstep) (fun hr => ?_) hstep⟩
  rw [hquiet.1] at hr
  exact .inr (if_pos (hc.bail hr))

/-- The CPUs when the window has been chosen. -/
theorem Consistent.windowChosen (hc : h.Consistent o s ls .windowChosen loadAddr)
    (hstep : cpusStep h.main r (s, ls) = some (s', ls')) :
    ∃ point', h.Consistent o s' ls' point' loadAddr := by
  have hrestart := hc.restart_eq (by simp) (by simp)
  have hquiet := cpusStep_quiet hc.together.point (fun cpu u u' l l' hl hseg => by
    obtain ⟨hr, -⟩ := setupWindow_flags h.main u l
    have hm := (TestStep.setupWindow h.main r.input u l).1.masterCpu
    simp only [cpuSegment, segment, hl, Option.some.injEq] at hseg
    rw [hseg] at hr hm
    exact ⟨hr, hm⟩) hstep
  exact ⟨_, hc.inWindows trivial (hc.together.windowChosen hstep)
    (fun hr => absurd (hr.symm.trans (hquiet.1.trans hrestart)) Bool.false_ne_true.symm) hstep⟩

/-- The CPUs when the window has been set up. -/
theorem Consistent.windowMapped (hhybrid : h.isHybrid = true)
    (hc : h.Consistent o s ls .windowMapped loadAddr)
    (hstep : cpusStep h.main r (s, ls) = some (s', ls')) :
    h.Consistent o s' ls' (loopPoint h.main s) loadAddr := by
  obtain ⟨hpoint, hload⟩ := hc.together.windowMapped hstep
  refine hc.inWindows trivial ⟨fun cpu hcpu => ?_, hload⟩ (fun _ => loopPoint_eq h.main s) hstep
  rw [hpoint cpu hcpu, afterWindow_eq hhybrid]

/-- The CPUs when the program has been moved. -/
theorem Consistent.runAt {target : LoadAddr} (hc : h.Consistent o s ls (.runAt target) loadAddr)
    (hstep : cpusStep h.main r (s, ls) = some (s', ls')) :
    h.Consistent o s' ls' .loopTop target := by
  refine hc.outsideWindows (hc.restart_eq nofun nofun) (hc.together.runAt hstep) id
    (cpusStep_quiet hc.together.point (fun cpu u u' l l' hl hseg => ?_) hstep)
  simp only [cpuSegment, segment, hl, Option.some.injEq, Prod.mk.injEq] at hseg
  rw [← hseg.1]
  exact ⟨rfl, rfl⟩

/-- The CPUs at the end of a trip. Here the next master is selected by `cpu_state`. -/
theorem Consistent.testDone (hc : h.Consistent o s ls .testDone loadAddr)
    (hstep : h.hybridStep o r (s, ls) = some (s', ls')) :
    h.Consistent o s' ls' .loopTop loadAddr ∨ h.Finished ls' := by
  have hsegment : ∀ cpu ∈ r.order, ∀ u u' l', h.MasterOk o u →
      h.hybridSegment o r.input cpu u (ls cpu) = some (u', l') →
      (h.MasterOk o u' ∧ (u.restart = false → u'.restart = false)) ∧
        (cpu = 0 → u'.restart = false) ∧
        (l'.point = .loopTop ∨ cpu = 0 ∧ l'.point = .finished) ∧ l'.loadAddr = loadAddr := by
    intro cpu hcpu u u' l' hu hseg
    have hcpu := r.perm.mem_iff.mp hcpu
    simp only [hybridSegment, hc.together.point cpu hcpu, if_true, cpuSegment, segment,
      Option.some.injEq] at hseg
    split_ifs at hseg with hzero
    · have hflags : (epilogue (h.afterStart o) r.input u).1.restart = false ∧
          h.MasterOk o (epilogue (h.afterStart o) r.input u).1 ∧
          ((epilogue (h.afterStart o) r.input u).2 = .loopTop ∨
            (epilogue (h.afterStart o) r.input u).2 = .finished) := epilogue_flags r.input hu
      obtain ⟨hr, hm, hp⟩ := hflags
      obtain ⟨rfl, rfl⟩ := Prod.mk.inj hseg
      exact ⟨⟨hm, fun _ => hr⟩, fun _ => hr, hp.imp_right fun hp => ⟨by simpa using hzero, hp⟩,
        hc.together.loadAddr cpu hcpu⟩
    · obtain ⟨rfl, rfl⟩ := Prod.mk.inj hseg
      exact ⟨⟨hu, id⟩, fun heq => absurd heq (by simpa using hzero), .inl rfl,
        hc.together.loadAddr cpu hcpu⟩
  have hnodup := MainConfig.nodup_order r
  obtain ⟨hmaster, hls⟩ := Lockstep.round_spec hnodup
    (fun cpu hcpu u u' l' hu hseg =>
      have hstep := hsegment cpu hcpu u u' l' hu hseg
      ⟨hstep.1.1, hstep.2.2⟩) hc.master hstep
  have hrestart : s'.restart = false := Lockstep.round_establish (J := fun u => u.restart = false)
    hnodup (r.perm.mem_iff.mpr h.main.zero_mem_enabledCpus)
    (fun cpu hcpu u u' l' hu hseg => (hsegment cpu hcpu u u' l' hu hseg).1)
    (fun u u' l' hu hseg =>
      (hsegment 0 (r.perm.mem_iff.mpr h.main.zero_mem_enabledCpus) u u' l' hu hseg).2.1 rfl)
    hc.master hstep
  replace hls : ∀ cpu ∈ h.main.enabledCpus, _ := fun cpu hcpu => hls cpu (r.perm.mem_iff.mpr hcpu)
  by_cases hfinished : (ls' 0).point = .finished
  · exact .inr ⟨hfinished, fun cpu hcpu => (hls cpu hcpu).1.imp_right And.right⟩
  · refine .inl (.of_restart hmaster ⟨fun cpu hcpu => ?_, fun cpu hcpu => (hls cpu hcpu).2⟩
      hrestart ?_)
    · exact (hls cpu hcpu).1.resolve_right fun hlast => hfinished (hlast.1 ▸ hlast.2)
    · exact False.elim

/-- What holds before every round, and behind the last one. -/
def Inv (h : HybridConfig) (o : h.StartOrder) (t : MainState × (ℕ → CpuState)) : Prop :=
  (∃ point loadAddr, h.Consistent o t.1 t.2 point loadAddr) ∨ h.Finished t.2

theorem Inv.hybridStep (hhybrid : h.isHybrid = true) {t t' : MainState × (ℕ → CpuState)}
    (hinv : h.Inv o t) (hstep : h.hybridStep o r t = some t') : h.Inv o t' := by
  obtain ⟨s, ls⟩ := t
  obtain ⟨s', ls'⟩ := t'
  obtain ⟨point, loadAddr, hc⟩ | ⟨hfinished, hls⟩ := hinv
  · have hmain : point ≠ .testDone → cpusStep h.main r (s, ls) = some (s', ls') := by
      intro hne
      rw [← hybridStep_eq (o := o) fun cpu hcpu => (hc.together.point cpu hcpu).symm ▸ hne]
      exact hstep
    cases point with
    | loopTop => exact .inl ⟨_, _, hc.loopTop (hmain nofun)⟩
    | testReady =>
      obtain ⟨point', hc'⟩ := hc.testReady (hmain nofun)
      exact .inl ⟨point', _, hc'⟩
    | testDone => exact (hc.testDone hstep).imp_left fun hc' => ⟨_, _, hc'⟩
    | windowEntry =>
      obtain ⟨point', hc'⟩ := hc.windowEntry (hmain nofun)
      exact .inl ⟨point', _, hc'⟩
    | windowChosen =>
      obtain ⟨point', hc'⟩ := hc.windowChosen (hmain nofun)
      exact .inl ⟨point', _, hc'⟩
    | windowMapped => exact .inl ⟨_, _, hc.windowMapped hhybrid (hmain nofun)⟩
    | runAt target => exact .inl ⟨_, _, hc.runAt (hmain nofun)⟩
    | finished =>
      exact absurd (hmain nofun)
        (cpusStep_ne_some_of_finished (hc.together.point 0 h.main.zero_mem_enabledCpus))
  · rw [hybridStep_eq fun cpu hcpu => (hls cpu hcpu).elim (fun hl => hl ▸ nofun)
      fun hl => hl ▸ nofun] at hstep
    exact absurd hstep (cpusStep_ne_some_of_finished hfinished)

theorem inv_of_cpusInitial {t : MainState × (ℕ → CpuState)} (hinit : CpusInitial h.main t) :
    h.Inv o t := by
  have hmaster : h.MasterOk o t.1 := by
    rw [MasterOk, hinit.bsp.masterCpu]
    exact ⟨h.main.numAvailableCpus_pos, (h.afterStart o).bsp_enabled⟩
  exact .inl ⟨_, _, .of_restart hmaster ⟨hinit.point, hinit.loadAddr⟩ hinit.bsp.restart nofun⟩

end

/-! ### Who takes part -/

section

variable {t : MainState × (ℕ → CpuState)}

/-- A CPU that takes part has come to the third wait of a window with all others. -/
theorem Inv.consistent_of_takesPart (hinv : h.Inv o t) {cpu : ℕ} (hcpu : h.TakesPart t cpu) :
    ∃ loadAddr, h.Consistent o t.1 t.2 .windowMapped loadAddr := by
  obtain ⟨point, loadAddr, hc⟩ | ⟨-, hls⟩ := hinv
  · obtain rfl : point = .windowMapped :=
      (hc.together.point cpu hcpu.1).symm.trans hcpu.2.1
    exact ⟨loadAddr, hc⟩
  · obtain hl | hl := hls cpu hcpu.1
    · exact absurd (hl.symm.trans hcpu.2.1) nofun
    · exact absurd (hl.symm.trans hcpu.2.1) nofun

theorem Inv.consistent_of_point (hinv : h.Inv o t) (hpoint : (t.2 0).point = .windowMapped) :
    ∃ loadAddr, h.Consistent o t.1 t.2 .windowMapped loadAddr := by
  obtain ⟨point, loadAddr, hc⟩ | ⟨hfinished, -⟩ := hinv
  · obtain rfl : point = .windowMapped :=
      (hc.together.point 0 h.main.zero_mem_enabledCpus).symm.trans hpoint
    exact ⟨loadAddr, hc⟩
  · exact absurd (hfinished.symm.trans hpoint) nofun

theorem Consistent.roles_eq {loadAddr : LoadAddr}
    (hc : h.Consistent o t.1 t.2 .windowMapped loadAddr) : Roles h.main t.1 t.2 :=
  (hc.roles trivial).resolve_left (by simp [hc.restart_eq nofun nofun])

theorem RunsParallel.dummyRun (hpar : h.RunsParallel t) : t.1.dummyRun = false := by
  have hparallel := hpar.parallelTest
  simp only [MainConfig.parallelTest, Bool.and_eq_true, Bool.not_eq_true'] at hparallel
  exact hparallel.1.1

/-- A test that is run on all CPUs is run on every CPU that was selected. -/
theorem RunsParallel.testingCpus_eq (hhybrid : h.isHybrid = true) (hinv : h.Inv o t)
    (hpar : h.RunsParallel t) : h.testingCpus t = {cpu | cpu ∈ h.main.enabledCpus} := by
  obtain ⟨loadAddr, hc⟩ := hinv.consistent_of_point hpar.point
  have hdummy := hpar.dummyRun
  ext cpu
  refine ⟨fun hcpu => hcpu.1, fun hcpu => ⟨hcpu, hc.together.point cpu hcpu, ?_, hpar.mapped, ?_⟩⟩
  · rw [hc.roles_eq.iAmActive cpu hcpu, hpar.parallelTest, Bool.or_true]
  · rw [if_neg (by simp [hdummy])]
    exact isSome_mapFirst hhybrid _ _

/-- Every other test is run on the master. -/
theorem testingCpus_eq_master (hinv : h.Inv o t) (hne : (h.testingCpus t).Nonempty)
    (hpar : ¬h.RunsParallel t) : h.testingCpus t = {t.1.masterCpu} ∧
      h.main.parallelTest t.1 = false := by
  obtain ⟨cpu₀, hcpu₀⟩ := hne
  obtain ⟨loadAddr, hc⟩ := hinv.consistent_of_takesPart hcpu₀
  have hparallel : h.main.parallelTest t.1 = false := by
    simpa using fun hparallel => hpar ⟨hc.together.point 0 h.main.zero_mem_enabledCpus,
      hcpu₀.2.2.2.1, hparallel⟩
  have honly : ∀ cpu, h.TakesPart t cpu → cpu = t.1.masterCpu := by
    intro cpu hcpu
    have hactive := hcpu.2.2.1
    rw [hc.roles_eq.iAmActive cpu hcpu.1, hparallel, Bool.or_false] at hactive
    simpa using hactive
  refine ⟨Set.eq_singleton_iff_unique_mem.mpr ⟨?_, honly⟩, hparallel⟩
  exact honly cpu₀ hcpu₀ ▸ hcpu₀

theorem numActiveCpus_eq (hinv : h.Inv o t) (hne : (h.testingCpus t).Nonempty) :
    t.1.numActiveCpus = if h.main.parallelTest t.1 then h.main.enabledCpus.length else 1 := by
  obtain ⟨cpu₀, hcpu₀⟩ := hne
  obtain ⟨loadAddr, hc⟩ := hinv.consistent_of_takesPart hcpu₀
  exact hc.roles_eq.numActiveCpus

theorem ncard_Iio (n : ℕ) : (Set.Iio n).ncard = n := by
  rw [← Finset.coe_range, Set.ncard_coe_finset, Finset.card_range]

theorem ncard_enabledCpus (cfg : MainConfig) :
    {cpu | cpu ∈ cfg.enabledCpus}.ncard = cfg.enabledCpus.length := by
  have hset : {cpu | cpu ∈ cfg.enabledCpus} = (cfg.enabledCpus.toFinset : Set ℕ) := by
    ext cpu
    simp
  rw [hset, Set.ncard_coe_finset, List.toFinset_card_of_nodup cfg.nodup_enabledCpus]

/-- The barrier waits for as many CPUs as take part. -/
theorem active_of_inv (hhybrid : h.isHybrid = true) (hinv : h.Inv o t)
    (hne : (h.testingCpus t).Nonempty) : t.1.numActiveCpus = (h.testingCpus t).ncard := by
  rw [numActiveCpus_eq hinv hne]
  by_cases hpar : h.RunsParallel t
  · rw [hpar.testingCpus_eq hhybrid hinv, hpar.parallelTest, if_pos rfl, ncard_enabledCpus]
  · obtain ⟨hmaster, hparallel⟩ := testingCpus_eq_master hinv hne hpar
    rw [hmaster, hparallel, Set.ncard_singleton]
    rfl

/-! ### What the chunks cover -/

variable {arch : Arch} {seg : VmSegment} {chunkAlign : ℕ}

/-- A single CPU has the whole segment. -/
theorem covered_of_single (hseg : SegmentOk arch seg) (halign : AlignOk arch chunkAlign)
    (hnum : t.1.numActiveCpus = 1) (hcard : (h.testingCpus t).ncard = 1) :
    h.Covered t arch seg chunkAlign := by
  have hcpus : h.chunkCpus t seg = h.testingCpus t := by
    ext cpu
    exact ⟨fun hcpu => hcpu.1, fun hcpu => ⟨hcpu, fun _ hne => absurd hnum hne⟩⟩
  obtain ⟨cpu₀, hcpu₀⟩ := Set.nonempty_of_ncard_ne_zero (hcard.symm ▸ Nat.one_ne_zero)
  obtain ⟨k, -, rfl⟩ := halign.exists_pow
  refine ⟨fun _ => ⟨seg.start, seg.stop⟩, fun cpu _ => ?_, seg.stop + arch.wordBytes, fun a => ?_,
    Nat.le_refl _, ?_⟩
  · rw [calculateChunk, if_pos (show (h.chunkConfig t.1).numActiveCpus = 1 from hnum)]
  · refine ⟨?_, fun hmem => ⟨cpu₀, hcpu₀, hseg.start_le, hmem.1, hmem.2⟩⟩
    rintro ⟨_, _, hmem⟩
    exact ⟨hmem.2.1, hmem.2.2⟩
  · rw [hcpus, hcard, Nat.one_mul]
    exact Nat.lt_add_of_pos_right (Nat.two_pow_pos k)

/-- The CPUs a segment is shared among have the chunks of a partition, and any other CPU an empty
one. -/
theorem covered_of_partition {n : ℕ} {index : ℕ → ℕ} {chunk : ℕ → Chunk}
    (hpart : IsChunkPartition arch chunkAlign seg (h.chunkCpus t seg) n index chunk)
    (hcard : (h.chunkCpus t seg).ncard = n)
    (hin : ∀ cpu ∈ h.chunkCpus t seg,
      calculateChunk arch (h.chunkConfig t.1) cpu seg chunkAlign = some (chunk cpu))
    (hout : ∀ cpu : ℕ, cpu ∈ h.testingCpus t → cpu ∉ h.chunkCpus t seg →
      calculateChunk arch (h.chunkConfig t.1) cpu seg chunkAlign = some ⟨1, 0⟩) :
    h.Covered t arch seg chunkAlign := by
  classical
  obtain ⟨top, hbytes, hle, hlt⟩ := hpart.uncovered
  refine ⟨fun cpu => if cpu ∈ h.chunkCpus t seg then chunk cpu else ⟨1, 0⟩, fun cpu hcpu => ?_, top,
    fun a => ?_, hle, hcard ▸ hlt⟩
  · dsimp only
    split_ifs with hmem
    · exact hin cpu hmem
    · exact hout cpu hcpu hmem
  · rw [← hbytes]
    constructor
    · rintro ⟨cpu, hcpu, ha⟩
      dsimp only at ha
      split_ifs at ha with hmem
      · exact ⟨cpu, hmem, ha⟩
      · exact absurd ha.1 (by decide)
    · rintro ⟨cpu, hcpu, ha⟩
      refine ⟨cpu, hcpu.1, ?_⟩
      dsimp only
      rwa [if_pos hcpu]

theorem chunkConfig_eq (hnum : t.1.numActiveCpus = h.main.enabledCpus.length) :
    h.chunkConfig t.1 = parallelConfig h.main.numa.enableNuma h.main.numAvailableCpus
      h.cpuNumToProximityDomainIdx fun cpu => !h.main.disabled cpu := by
  obtain ⟨hcount, -, -⟩ := countCpus_spec h.main.numa.enableNuma
    (smpGetProximityDomainIdx h.main.numAvailableCpus h.cpuNumToProximityDomainIdx)
    (fun cpu => !h.main.disabled cpu) h.main.numAvailableCpus
  have hlen : h.main.enabledCpus.length = (parallelConfig h.main.numa.enableNuma
      h.main.numAvailableCpus h.cpuNumToProximityDomainIdx
      fun cpu => !h.main.disabled cpu).numActiveCpus := by
    rw [parallelConfig, hcount, MainConfig.enabledCpus, ← List.countP_eq_length_filter]
    simp [Nat.count]
  rw [chunkConfig, hnum, hlen]

/-- All CPUs have their chunks, unless there is no CPU for the segment. -/
theorem covered_of_parallel (hseg : SegmentOk arch seg) (halign : AlignOk arch chunkAlign)
    (hdvd : chunkAlign ∣ seg.start) (htesting : h.testingCpus t = {cpu | cpu ∈ h.main.enabledCpus})
    (hnum : t.1.numActiveCpus = h.main.enabledCpus.length) (hlen : h.main.enabledCpus.length ≠ 1)
    (hdomain : h.main.numa.enableNuma = true → ∃ cpu ∈ h.main.enabledCpus,
      smpGetProximityDomainIdx h.main.numAvailableCpus h.cpuNumToProximityDomainIdx cpu =
        seg.proximityDomainIdx) :
    h.Covered t arch seg chunkAlign := by
  have hmem : ∀ cpu, h.TakesPart t cpu ↔
      cpu < h.main.numAvailableCpus ∧ (!h.main.disabled cpu) = true := by
    intro cpu
    change cpu ∈ h.testingCpus t ↔ _
    rw [htesting]
    simp [MainConfig.mem_enabledCpus]
  have hlt : 1 < t.1.numActiveCpus := by
    have hpos := List.length_pos_of_mem h.main.zero_mem_enabledCpus
    omega
  have hcfg := chunkConfig_eq hnum
  have hactive : 1 < (h.chunkConfig t.1).numActiveCpus := hlt
  cases hnuma : h.main.numa.enableNuma with
  | false =>
    rw [hnuma] at hcfg
    have hcpus : h.chunkCpus t seg =
        {cpu | cpu < h.main.numAvailableCpus ∧ (!h.main.disabled cpu) = true} := by
      ext cpu
      exact ⟨fun hcpu => (hmem cpu).mp hcpu.1,
        fun hcpu => ⟨(hmem cpu).mpr hcpu,
          fun h' => absurd (hnuma.symm.trans h') Bool.false_ne_true⟩⟩
    have hbij : Set.BijOn (h.chunkConfig t.1).chunkIndex (h.chunkCpus t seg)
        (Set.Iio (h.chunkConfig t.1).numActiveCpus) := by
      rw [hcpus, hcfg]
      exact bijOn_chunkIndex_nonNuma
    refine covered_of_partition
      (isChunkPartition_chunkAt hseg halign hdvd (Nat.zero_lt_of_lt hactive) hbij)
      (hbij.ncard_eq.trans (ncard_Iio _)) (fun cpu hcpu => ?_) fun cpu hcpu hnot => ?_
    · rw [calculateChunk_nonNuma hactive hnuma, Int.toNat_natCast]
      exact divideSegment_eq hseg halign (hbij.mapsTo hcpu)
    · rw [hcpus] at hnot
      exact absurd ((hmem cpu).mp hcpu) hnot
  | true =>
    rw [hnuma] at hcfg
    have hnot_one : t.1.numActiveCpus ≠ 1 := hlt.ne'
    have hcpus : h.chunkCpus t seg = domainCpus (h.chunkConfig t.1)
        (fun cpu => !h.main.disabled cpu) seg.proximityDomainIdx := by
      ext cpu
      refine ⟨fun hcpu => ?_, fun hcpu => ⟨(hmem cpu).mpr ⟨hcpu.1, hcpu.2.1⟩, fun _ _ => hcpu.2.2⟩⟩
      obtain ⟨hlt', hselected⟩ := (hmem cpu).mp hcpu.1
      exact ⟨hlt', hselected, hcpu.2 hnuma hnot_one⟩
    have hbij : Set.BijOn (h.chunkConfig t.1).chunkIndex (h.chunkCpus t seg)
        (Set.Iio ((h.chunkConfig t.1).usedCpusInProximityDomain seg.proximityDomainIdx)) := by
      rw [hcpus, hcfg]
      exact bijOn_chunkIndex_numa seg.proximityDomainIdx
    obtain ⟨cpu₀, hcpu₀, hdom₀⟩ := hdomain hnuma
    have hpos := Nat.zero_lt_of_lt (hbij.mapsTo (show cpu₀ ∈ h.chunkCpus t seg from
      ⟨(hmem cpu₀).mpr (by simpa [MainConfig.mem_enabledCpus] using hcpu₀), fun _ _ => hdom₀⟩))
    refine covered_of_partition (isChunkPartition_chunkAt hseg halign hdvd hpos hbij)
      (hbij.ncard_eq.trans (ncard_Iio _)) (fun cpu hcpu => ?_) fun cpu hcpu hnot => ?_
    · have hdom : (h.chunkConfig t.1).domainOf cpu = seg.proximityDomainIdx :=
        hcpu.2 hnuma hnot_one
      rw [calculateChunk_numa hactive hnuma, Int.toNat_natCast, if_pos hdom, hdom]
      exact divideSegment_eq hseg halign (hbij.mapsTo hcpu)
    · -- a CPU of another domain
      rw [calculateChunk_numa hactive hnuma, Int.toNat_natCast, if_neg]
      exact fun hdom => hnot ⟨hcpu, fun _ _ => hdom⟩

/-- The tests are shared among the CPUs just if none of those that take part has been excluded, and
no segment is left to a proximity domain without a CPU. -/
theorem testsShared_iff_of_inv (hhybrid : h.isHybrid = true) (hinv : h.Inv o t) :
    h.TestsShared o t ↔ (h.RunsParallel t → ¬h.HasExcluded ∧ ¬h.DomainWithoutCpu t.1) := by
  constructor
  · intro hshared hpar
    have htesting := hpar.testingCpus_eq hhybrid hinv
    have hne : (h.testingCpus t).Nonempty := by
      rw [htesting]
      exact ⟨0, h.main.zero_mem_enabledCpus⟩
    constructor
    · rintro ⟨cpu, hcpu, hzero, hexcluded⟩
      refine hshared.included cpu (htesting ▸ hcpu) ?_
      exact (cpuState_eq_disabled_iff o (MainConfig.mem_enabledCpus.mp hcpu).1).mpr
        ⟨hzero, .inr hexcluded⟩
    · rintro ⟨hnuma, hlen, seg, hseg, hdomain⟩
      have hnum := numActiveCpus_eq hinv hne
      rw [hpar.parallelTest, if_pos rfl] at hnum
      have hnone : h.chunkCpus t ⟨0, 8, 8, seg.proximityDomainIdx⟩ = ∅ := by
        refine Set.eq_empty_iff_forall_notMem.mpr fun cpu hcpu => ?_
        exact hdomain cpu hcpu.1.1 (hcpu.2 hnuma (hnum ▸ hlen))
      have hword : SegmentOk .b64 ⟨0, 8, 8, seg.proximityDomainIdx⟩ :=
        ⟨Nat.succ_pos 7, Nat.le_refl 8, ⟨1, rfl⟩, ⟨1, rfl⟩, show 16 ≤ 2 ^ 64 by decide⟩
      obtain ⟨_, -, top, -, hle, hlt⟩ := hshared.covered hpar.dummyRun hne .b64
        ⟨0, 8, 8, seg.proximityDomainIdx⟩ 8 (List.mem_map.mpr ⟨seg, hseg, rfl⟩) hword
        ⟨⟨3, by decide, rfl⟩, ⟨1, rfl⟩⟩ ⟨1, rfl⟩
      rw [hnone, Set.ncard_empty, Nat.zero_mul] at hlt
      omega
  · intro hcond
    refine ⟨fun cpu hcpu hdisabled => ?_, fun _ => active_of_inv hhybrid hinv,
      fun _ hne arch seg chunkAlign hseg hsegOk halign hdvd => ?_⟩
    · have hlt := (MainConfig.mem_enabledCpus.mp hcpu.1).1
      by_cases hpar : h.RunsParallel t
      · obtain ⟨hzero, hdisabled | hexcluded⟩ := (cpuState_eq_disabled_iff o hlt).mp hdisabled
        · exact absurd (hdisabled.symm.trans (MainConfig.mem_enabledCpus.mp hcpu.1).2) nofun
        · exact (hcond hpar).1 ⟨cpu, hcpu.1, hzero, hexcluded⟩
      · -- the master is not disabled
        obtain ⟨loadAddr, hc⟩ := hinv.consistent_of_takesPart hcpu
        have hmaster : cpu ∈ ({t.1.masterCpu} : Set ℕ) :=
          (testingCpus_eq_master hinv ⟨cpu, hcpu⟩ hpar).1 ▸ hcpu
        obtain rfl := Set.mem_singleton_iff.mp hmaster
        exact of_decide_eq_false hc.master.2 hdisabled
    · have hactive := active_of_inv hhybrid hinv hne
      by_cases hone : t.1.numActiveCpus = 1
      · exact covered_of_single hsegOk halign hone (hactive ▸ hone)
      · have hnum := numActiveCpus_eq hinv hne
        by_cases hpar : h.RunsParallel t
        · rw [hpar.parallelTest, if_pos rfl] at hnum
          refine covered_of_parallel hsegOk halign hdvd (hpar.testingCpus_eq hhybrid hinv) hnum
            (hnum ▸ hone) fun hnuma => ?_
          by_contra hno
          obtain ⟨seg', hseg', hidx⟩ := List.mem_map.mp hseg
          refine (hcond hpar).2 ⟨hnuma, hnum ▸ hone, seg', hseg', fun cpu hcpu heq => ?_⟩
          exact hno ⟨cpu, hcpu, heq.trans hidx⟩
        · rw [(testingCpus_eq_master hinv hne hpar).2] at hnum
          exact absurd hnum hone

/-- **Excluded cores.** Along a run every test is shared among CPUs that are not disabled, just as
long as no test is run on all CPUs while one of them is excluded, or while a segment of the window
is in a proximity domain without a CPU.

The order in which the CPUs have been started, the order in which they take their turns and the
keys of the user are arbitrary. Both exceptions are conditions on the machine and on the state
before the round: a run in which the user never selects the parallel mode meets neither. -/
theorem always_testsShared_iff (hhybrid : h.isHybrid = true) {rounds : List (CpuRound h.main)}
    {u₀ : MainState × (ℕ → CpuState)} (hinit : CpusInitial h.main u₀) :
    Executions.Always (h.hybridStep o) (fun _ t => h.TestsShared o t) rounds u₀ ↔
      Executions.Always (h.hybridStep o)
        (fun _ t => h.RunsParallel t → ¬h.HasExcluded ∧ ¬h.DomainWithoutCpu t.1) rounds u₀ := by
  have hnothing : Executions.Always (h.hybridStep o) (fun _ _ => True) rounds u₀ :=
    .of_forall fun _ _ _ => trivial
  have hinv := hnothing.invariant (I := h.Inv o)
    (fun _ _ _ _ hI hstep => hI.hybridStep hhybrid hstep) (inv_of_cpusInitial hinit)
  constructor
  · intro hall before r after t hrounds ht
    exact (testsShared_iff_of_inv hhybrid (hinv before r after t hrounds ht).2).mp
      (hall before r after t hrounds ht)
  · intro hall before r after t hrounds ht
    exact (testsShared_iff_of_inv hhybrid (hinv before r after t hrounds ht).2).mpr
      (hall before r after t hrounds ht)

end

/-! ### A performance core and an efficiency core -/

/-- CPU 1 is an efficiency core. -/
def twoCoreConfig (excludeEcores : Bool) : HybridConfig where
  main := { twoCpuConfig with flags := ⟨true, true⟩ }
  isHybrid := true
  coreType := fun cpu => if cpu = 1 then .ecore else .pcore
  excludeEcores := excludeEcores
  cpuNumToProximityDomainIdx := fun _ => 0
  hybrid_longMode := fun _ => rfl

/-- CPU 1 is the only AP. -/
def twoCoreOrder (excludeEcores : Bool) : (twoCoreConfig excludeEcores).StartOrder where
  order := [1]
  perm := by
    have hcpus : (twoCoreConfig excludeEcores).main.enabledCpus = [0, 1] := rfl
    rw [hcpus]
    exact .refl _

/-- The CPUs in front of the main loop, in PAR mode and with test 4 enabled. -/
def parallelInit : MainState × (ℕ → CpuState) :=
  ((mainInit (fun n => n = 4) .par).1, fun _ => (mainInit (fun n => n = 4) .par).2)

theorem cpusInitial_parallelInit (cfg : MainConfig) : CpusInitial cfg parallelInit :=
  ⟨isInitial_mainInit _ _, fun _ _ => rfl, fun _ _ => rfl⟩

theorem always_testsShared_iff_twoCore :
    Executions.Always ((twoCoreConfig false).hybridStep (twoCoreOrder false))
      (fun _ t => (twoCoreConfig false).TestsShared (twoCoreOrder false) t)
      (List.replicate 120 (quietRound (twoCoreConfig false).main)) parallelInit := by
  refine (always_testsShared_iff rfl (cpusInitial_parallelInit _)).mpr
    (.of_forall fun _ _ t _ => ⟨?_, ?_⟩)
  · rintro ⟨cpu, -, -, hexcluded⟩
    exact absurd hexcluded.2.2 nofun
  · rintro ⟨hnuma, -, -⟩
    exact absurd hnuma nofun

set_option maxRecDepth 10000 in
/-- With the efficiency cores excluded, CPU 1 takes part in test 4 all the same. -/
theorem not_always_testsShared_twoCore :
    ¬∀ (h : HybridConfig) (o : h.StartOrder) (rounds : List (CpuRound h.main))
      (u₀ : MainState × (ℕ → CpuState)), h.isHybrid = true → CpusInitial h.main u₀ →
      Executions.Always (h.hybridStep o) (fun _ t => h.TestsShared o t) rounds u₀ := by
  intro hall
  have hrun : ((Executions.exec ((twoCoreConfig true).hybridStep (twoCoreOrder true))
      (List.replicate 105 (quietRound (twoCoreConfig true).main)) parallelInit).map fun t =>
        decide (CallsRunTest (twoCoreConfig true).main t.1 (t.2 1))) = some true := by
    decide
  obtain ⟨t, ht, hcalls⟩ := Option.map_eq_some_iff.mp hrun
  have hshared := hall (twoCoreConfig true) (twoCoreOrder true)
    (List.replicate 105 (quietRound (twoCoreConfig true).main) ++ [quietRound _]) parallelInit rfl
    (cpusInitial_parallelInit _) _ _ [] t rfl ht
  exact hshared.included 1 ⟨by decide, of_decide_eq_true hcalls⟩ (by decide)

end HybridConfig

end Memtest
