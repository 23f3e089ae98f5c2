import Memtest.Main.LoopSpec
import Memtest.Windows.Coverage

/-!
# The windows of a stage

In a stage of a test, with a master, `test_all_windows` goes through the windows from the first one
to the one that reaches the end of `pm_map`, and calls `run_test` in those that have pages to test.
A real run ends at a window that cannot be mapped. The loop is left in the middle when the program
moves itself, and is taken up again by the globals it is controlled by, and it ends early when
`bail` is set. So how far a stage has come is an invariant (`StageProgress`): the windows that have
been tested, and those that the globals still lead to, are all windows of the stage.
-/

namespace Memtest

variable {cfg : MainConfig} {inp : Input} {s s' : MainState} {l l' : CpuState}

/-! ### The windows of a test -/

namespace WindowConfig

variable (cfg : WindowConfig)

/-- What `setup_vm_map` makes of window `k`. -/
def windowVm (k : ℕ) : VmMapState :=
  setupVmMap cfg.numa cfg.limits cfg.pmMap (winBound k) (winBound (k + 1))

/-- The window that reaches the end of the last segment, or the first one if that lies behind it. -/
def lastWindow : ℕ :=
  max (skipWindow cfg 0)
    (if cfg.lastEnd ≤ 1024 then 0 else (cfg.lastEnd + (vmWindowSize - 1)) / vmWindowSize)

/-- The program gets to the pages of window `k`. The dummy run does not map anything. -/
def reaches (dummyRun : Bool) (k : ℕ) : Bool :=
  dummyRun || (mapFirst cfg.flags (cfg.windowVm k) 0).isSome

/-- The windows from `k` on in which `run_test` is to be called. -/
def testedFrom (dummyRun : Bool) (k : ℕ) : List ℕ :=
  ((List.range' k (cfg.lastWindow + 1 - k)).takeWhile (cfg.reaches dummyRun)).filter
    fun k => (cfg.windowVm k).numMappedPages ≠ 0

/-- All of them. -/
def testedWindows (dummyRun : Bool) : List ℕ := cfg.testedFrom dummyRun (skipWindow cfg 0)

variable {cfg} {k : ℕ}

/-- Window 0 may be skipped, and nothing else. -/
theorem skipWindow_cases (cfg : WindowConfig) (k : ℕ) :
    skipWindow cfg k = k ∨ k = 0 ∧ skipWindow cfg k = 1 := by
  unfold skipWindow
  dsimp only
  split_ifs <;> omega

/-- The loop condition behind window `k`. -/
theorem winBound_lt_lastEnd_iff (hk : skipWindow cfg k = k) :
    winBound (k + 1) < cfg.lastEnd ↔ k < cfg.lastWindow := by
  have hfirst : skipWindow cfg 0 ≤ k := by
    obtain h | ⟨-, h⟩ := skipWindow_cases cfg 0
    · exact h.le.trans (Nat.zero_le k)
    · obtain _ | k := k
      · exact hk.le
      · omega
  rw [lastWindow, vmWindowSize_eq, lt_max_iff, or_iff_right (Nat.not_lt.mpr hfirst)]
  obtain _ | k := k
  · change 1024 < _ ↔ _
    split_ifs <;> omega
  · change (k + 1) * 262144 < _ ↔ _
    split_ifs <;> omega

theorem testedFrom_of_lt (dummyRun : Bool) (h : cfg.lastWindow < k) :
    cfg.testedFrom dummyRun k = [] := by
  rw [testedFrom, show cfg.lastWindow + 1 - k = 0 by omega]
  rfl

theorem testedFrom_of_not_reaches {dummyRun : Bool} (h : cfg.reaches dummyRun k = false) :
    cfg.testedFrom dummyRun k = [] := by
  rw [testedFrom]
  cases cfg.lastWindow + 1 - k with
  | zero => rfl
  | succ n => rw [List.range'_succ, List.takeWhile_cons_of_neg (by simp [h]), List.filter_nil]

theorem testedFrom_of_reaches {dummyRun : Bool} (hle : k ≤ cfg.lastWindow)
    (h : cfg.reaches dummyRun k = true) :
    cfg.testedFrom dummyRun k = (if (cfg.windowVm k).numMappedPages = 0 then [] else [k]) ++
      cfg.testedFrom dummyRun (k + 1) := by
  rw [testedFrom, show cfg.lastWindow + 1 - k = (cfg.lastWindow + 1 - (k + 1)) + 1 by omega,
    List.range'_succ, List.takeWhile_cons_of_pos h, List.filter_cons, testedFrom]
  split_ifs <;> simp_all

end WindowConfig

/-- The configuration of the window loop for a test. -/
def MainConfig.windowsOf (cfg : MainConfig) (limits : PageLimits) (testNum : ℤ) : WindowConfig where
  flags := cfg.flags
  numa := cfg.numa
  limits := limits
  pmMap := cfg.pmMap
  stages := (cfg.testPattern testNum).stages
  beforePmMap := cfg.beforePmMap

/-- The windows in which `run_test` is to be called for a test, in each of its stages. -/
def MainConfig.testedWindows (cfg : MainConfig) (s : MainState) (testNum : ℤ) : List ℕ :=
  (cfg.windowsOf s.limits testNum).testedWindows s.dummyRun

/-- A window in which a test is run. -/
def MainEvent.window? : MainEvent → Option ℕ
  | .runTest _ _ _ _ windowNum => some windowNum
  | _ => none

/-- The windows in which some test is run. -/
def runWindows (events : List MainEvent) : List ℕ := events.filterMap MainEvent.window?

@[simp] theorem runWindows_nil : runWindows [] = [] := rfl

theorem runWindows_append (events events' : List MainEvent) :
    runWindows (events ++ events') = runWindows events ++ runWindows events' :=
  List.filterMap_append

/-! ### How far a stage has come -/

/-- What is left of a stage whose windows are `ws`: those from one on, behind the ones that have
been tested. -/
structure WindowsLeft (cfg : MainConfig) (ws tested : List ℕ) (s : MainState) : Prop where
  split : tested ++ (cfg.windows s).testedFrom s.dummyRun (skipWindow (cfg.windows s) s.windowNum)
    = ws
  le : skipWindow (cfg.windows s) s.windowNum ≤ (cfg.windows s).lastWindow

/-- The same in front of the window, from where `window_end` is taken on. -/
structure BeforeWindow (cfg : MainConfig) (ws tested : List ℕ) (s : MainState) : Prop extends
    WindowsLeft cfg ws tested s where
  windowEnd : 2 ≤ s.windowNum → s.windowEnd = winBound s.windowNum

/-- `setup_vm_map` has been called for the window. -/
structure WindowSetUp (cfg : MainConfig) (s : MainState) : Prop where
  chosen : skipWindow (cfg.windows s) s.windowNum = s.windowNum
  windowEnd : s.windowEnd = winBound (s.windowNum + 1)
  vm : s.vm = (cfg.windows s).windowVm s.windowNum

/-- The windows that have been tested when the loop has ended: all of them, unless the test has been
skipped. -/
def Tested (ws : List ℕ) (bail : Bool) (tested : List ℕ) : Prop :=
  tested <+: ws ∧ (bail = false → tested = ws)

theorem Tested.mono {ws tested : List ℕ} {bail bail' : Bool} (h : Tested ws bail tested)
    (hbail : bail = true → bail' = true) : Tested ws bail' tested := by
  refine ⟨h.1, fun hbail' => h.2 ?_⟩
  cases bail with
  | false => rfl
  | true => exact absurd (hbail rfl) (by simp [hbail'])

/-- How far a stage has come at a wait. -/
def ProgressAt (cfg : MainConfig) (ws tested : List ℕ) (s : MainState) : WaitPoint → Prop
  | .loopTop => if s.rerunTest then tested = [] else BeforeWindow cfg ws tested s
  | .testReady | .windowEntry | .runAt _ => BeforeWindow cfg ws tested s
  | .windowChosen => BeforeWindow cfg ws tested s ∧
      skipWindow (cfg.windows s) s.windowNum = s.windowNum
  | .windowMapped => WindowsLeft cfg ws tested s ∧ WindowSetUp cfg s
  | .testDone => Tested ws s.bail tested
  | .finished => True

/-- In the loop, the CPU takes part in the test as the master. -/
def CpuState.RunsTest (l : CpuState) : Prop :=
  l.point = .windowEntry ∨ l.point = .windowChosen ∨ l.point = .windowMapped →
    l.iAmMaster = true ∧ l.iAmActive = true

/-- A stage whose windows are `ws`, of which those in `tested` have been tested. The windows are
those of the test that is being run, under the limits that are in force. -/
structure StageProgress (cfg : MainConfig) (ws tested : List ℕ) (s : MainState)
    (l : CpuState) : Prop where
  windows : cfg.testedWindows s s.testNum = ws
  cpu : l.RunsTest
  rerunTest : l.point ≠ .loopTop → s.rerunTest = false
  progress : ProgressAt cfg ws tested s l.point

section

variable {ws tested : List ℕ}

/-- What the windows of a stage depend on. -/
structure SameWindows (s s' : MainState) : Prop where
  limits : s'.limits = s.limits
  testNum : s'.testNum = s.testNum
  dummyRun : s'.dummyRun = s.dummyRun

theorem SameWindows.windows_eq (h : SameWindows s s') (cfg : MainConfig) :
    cfg.windows s' = cfg.windows s := by
  rw [MainConfig.windows, MainConfig.windows, h.limits, h.testNum]

theorem SameWindows.testedWindows_eq (h : SameWindows s s') (cfg : MainConfig) :
    cfg.testedWindows s' s'.testNum = cfg.testedWindows s s.testNum := by
  rw [MainConfig.testedWindows, MainConfig.testedWindows, h.limits, h.testNum, h.dummyRun]

/-- A step inside a test, as long as no restart is asked for. -/
theorem TestStep.sameWindows (h : TestStep inp s s') (hrestart : s'.restart = false) :
    SameWindows s s' where
  limits := (h.keep.resolve_left (by simp [hrestart])).1.limits
  testNum := h.testNum
  dummyRun := h.dummyRun

theorem BeforeWindow.congr (h : BeforeWindow cfg ws tested s) (hsame : SameWindows s s')
    (hnum : s'.windowNum = s.windowNum) (hend : s'.windowEnd = s.windowEnd) :
    BeforeWindow cfg ws tested s' where
  split := by rw [hsame.windows_eq cfg, hsame.dummyRun, hnum, h.split]
  le := by
    rw [hsame.windows_eq cfg, hnum]
    exact h.le
  windowEnd := by
    rw [hnum, hend]
    exact h.windowEnd

theorem WindowsLeft.prefix (h : WindowsLeft cfg ws tested s) : tested <+: ws := ⟨_, h.split⟩

/-- A stage begins with the first window. -/
theorem BeforeWindow.first (hwindows : cfg.testedWindows s s.testNum = ws)
    (hnum : s.windowNum = 0) : BeforeWindow cfg ws [] s := by
  refine ⟨⟨?_, ?_⟩, fun h => by omega⟩
  · rw [hnum, List.nil_append]
    exact hwindows
  · rw [hnum, WindowConfig.lastWindow]
    exact Nat.le_max_left _ _

/-- The end of the loop body: the program goes on to the next window, or has gone through all of
them. -/
theorem WindowsLeft.next (h : WindowsLeft cfg ws tested s) (hset : WindowSetUp cfg s)
    (hreaches : (cfg.windows s).reaches s.dummyRun s.windowNum = true) (hsame : SameWindows s s')
    (hnum : s'.windowNum = s.windowNum + 1) (hend : s'.windowEnd = s.windowEnd)
    {run : List ℕ} (hrun : run = if s.vm.numMappedPages = 0 then [] else [s.windowNum]) :
    ProgressAt cfg ws (tested ++ run) s' (loopPoint cfg s') := by
  have hcfg := hsame.windows_eq cfg
  have hle := h.le
  have hsplit := h.split
  rw [hset.chosen] at hle hsplit
  rw [WindowConfig.testedFrom_of_reaches hle hreaches, ← hset.vm, ← hrun, ← List.append_assoc]
    at hsplit
  have hcond : s'.windowEnd < cfg.lastEnd ↔ s.windowNum < (cfg.windows s).lastWindow := by
    rw [hend, hset.windowEnd]
    exact WindowConfig.winBound_lt_lastEnd_iff hset.chosen
  rw [loopPoint]
  split_ifs with hlt
  · refine ⟨⟨?_, ?_⟩, fun _ => ?_⟩
    · rw [hcfg, hsame.dummyRun, hnum, skipWindow_of_pos (Nat.succ_pos _)]
      exact hsplit
    · rw [hcfg, hnum, skipWindow_of_pos (Nat.succ_pos _)]
      exact hcond.mp hlt
    · rw [hend, hset.windowEnd, hnum]
  · have hlast := Nat.not_lt.mp (mt hcond.mpr hlt)
    rw [WindowConfig.testedFrom_of_lt _ (Nat.lt_succ_of_le hlast), List.append_nil] at hsplit
    exact ⟨hsplit ▸ List.prefix_refl _, fun _ => hsplit⟩

/-! ### The steps of a stage -/

/-- What a step adds to the windows that have been tested. -/
def StageStep (cfg : MainConfig) (ws tested : List ℕ) (s s' : MainState) (l' : CpuState) : Prop :=
  ∃ events, s'.log = s.log ++ events ∧ StageProgress cfg ws (tested ++ runWindows events) s' l'

/-- A step that tests nothing. -/
theorem StageStep.quiet {events : List MainEvent} (hlog : s'.log = s.log ++ events)
    (hevents : runWindows events = []) (h : StageProgress cfg ws tested s' l') :
    StageStep cfg ws tested s s' l' :=
  ⟨events, hlog, by rwa [hevents, List.append_nil]⟩

/-- The prologue of a trip, in the middle of a test. -/
theorem StageProgress.prologue (h : StageProgress cfg ws tested s l) (hl : l.point = .loopTop)
    (beyond : ℤ) (hrun : s.startRun = false) (hpass : s.startPass = false)
    (htest : s.startTest = false) (hl' : l'.point = .testReady) :
    StageProgress cfg ws tested (prologue beyond s) l' := by
  have hprogress := h.progress
  rw [hl, ProgressAt] at hprogress
  rw [prologue_of_resume beyond hrun hpass htest, beginStage]
  refine ⟨?_, fun hpoint => absurd hpoint (by simp [hl']), fun _ => rfl, ?_⟩
  · rw [← h.windows]
    split_ifs <;> rfl
  · rw [hl']
    split_ifs at hprogress ⊢ with hrerun
    · subst hprogress
      exact BeforeWindow.first h.windows rfl
    · exact hprogress.congr ⟨rfl, rfl, rfl⟩ rfl rfl

/-- The code in front of the loop. -/
theorem StageProgress.enterTest (h : StageProgress cfg ws tested s l) (hl : l.point = .testReady) :
    StageStep cfg ws tested s (enterTest cfg true (s.record (.indexTest s.testNum)) l).1
      (enterTest cfg true (s.record (.indexTest s.testNum)) l).2 := by
  have hprogress := h.progress
  have hrerun := h.rerunTest (by simp [hl])
  rw [hl] at hprogress
  exact .quiet rfl rfl ⟨h.windows, fun _ => ⟨rfl, rfl⟩, fun _ => hrerun,
    BeforeWindow.congr hprogress ⟨rfl, rfl, rfl⟩ rfl rfl⟩

theorem StageProgress.chooseWindow (h : StageProgress cfg ws tested s l)
    (hl : l.point = .windowEntry) :
    StageStep cfg ws tested s (chooseWindow cfg s l).1 (chooseWindow cfg s l).2 := by
  have hprogress := h.progress
  have hrerun := h.rerunTest (by simp [hl])
  obtain ⟨hmaster, hactive⟩ := h.cpu (.inl hl)
  rw [hl] at hprogress
  replace hprogress : BeforeWindow cfg ws tested s := hprogress
  have hlog : (Memtest.chooseWindow cfg s l).1.log = s.log ++ [] := by
    rw [Memtest.chooseWindow]
    split_ifs <;> simp
  refine .quiet hlog rfl ?_
  rw [Memtest.chooseWindow]
  split_ifs with hbail
  · exact ⟨h.windows, by simp [CpuState.RunsTest], fun _ => hrerun, hprogress.prefix,
      fun hb => absurd (hb.symm.trans hbail) Bool.false_ne_true⟩
  · have hskip : skipWindow (cfg.windows s) (skipWindow (cfg.windows s) s.windowNum) =
        skipWindow (cfg.windows s) s.windowNum := skipWindow_skipWindow s.windowNum
    refine ⟨h.windows, fun _ => ⟨hmaster, hactive⟩, fun _ => hrerun,
      ⟨⟨?_, ?_⟩, fun hnum => ?_⟩, hskip⟩
    · exact (congrArg (fun k => tested ++ (cfg.windows s).testedFrom s.dummyRun k) hskip).trans
        hprogress.split
    · exact hskip.le.trans hprogress.le
    · obtain heq | ⟨-, heq⟩ := WindowConfig.skipWindow_cases (cfg.windows s) s.windowNum
      · exact (hprogress.windowEnd (hnum.trans heq.le)).trans (congrArg winBound heq.symm)
      · exact absurd (hnum.trans heq.le) (by omega)

theorem StageProgress.setupWindow (h : StageProgress cfg ws tested s l)
    (hl : l.point = .windowChosen) :
    StageStep cfg ws tested s (setupWindow cfg s l).1 (setupWindow cfg s l).2 := by
  have hprogress := h.progress
  have hrerun := h.rerunTest (by simp [hl])
  obtain ⟨hmaster, hactive⟩ := h.cpu (.inr (.inl hl))
  rw [hl] at hprogress
  obtain ⟨hleft, hchosen⟩ : BeforeWindow cfg ws tested s ∧ _ := hprogress
  have hlog : (Memtest.setupWindow cfg s l).1.log = s.log ++ [] := by
    rw [Memtest.setupWindow]
    split_ifs <;> simp
  refine .quiet hlog rfl ?_
  rw [Memtest.setupWindow]
  split_ifs
  · exact ⟨h.windows, by simp [CpuState.RunsTest], fun _ => hrerun, hleft⟩
  · obtain ⟨hstart, hend, -⟩ := nextWindow_spec (k := s.windowNum)
      (s := ⟨s.windowNum, s.windowStart, s.windowEnd, l.loadAddr, s.mappedWindow⟩) rfl
      hleft.windowEnd
    exact ⟨h.windows, fun _ => ⟨hmaster, hactive⟩, fun _ => hrerun,
      ⟨hleft.split, hleft.le⟩, hchosen, hend,
      congrArg₂ (setupVmMap cfg.numa s.limits cfg.pmMap) hstart hend⟩

/-- What the master does with a window: it has no pages to test, or cannot be mapped, or is
tested. -/
theorem testWindow_master (cfg : MainConfig) (inp : Input) (s : MainState)
    (hcpu : l.iAmMaster = true ∧ l.iAmActive = true) :
    (s.vm.numMappedPages = 0 ∧ testWindow cfg inp s l =
      ({ s with windowNum := s.windowNum + 1 }, { l with point := loopPoint cfg s })) ∨
    (s.vm.numMappedPages ≠ 0 ∧ s.dummyRun = false ∧
      mapFirst cfg.flags s.vm s.mappedWindow = none ∧
      testWindow cfg inp s l = (s, { l with point := .testDone })) ∨
    ∃ s₁, s.vm.numMappedPages ≠ 0 ∧
      (s.dummyRun || (mapFirst cfg.flags s.vm s.mappedWindow).isSome) = true ∧
      testWindow cfg inp s l = (s₁, { l with point := loopPoint cfg s₁ }) ∧
      s₁.windowNum = s.windowNum + 1 ∧ s₁.windowEnd = s.windowEnd ∧
      s₁.log = s.log ++ [.indexTest s.testNum,
        .runTest s.testNum s.testStage s.masterCpu l.iterations s.windowNum] := by
  obtain ⟨hmaster, hactive⟩ := hcpu
  rw [testWindow, if_neg (by simp [hactive])]
  simp only [hmaster, if_true]
  by_cases hpages : s.vm.numMappedPages = 0
  · exact .inl ⟨hpages, by rw [if_pos hpages]; rfl⟩
  refine .inr ?_
  rw [if_neg hpages]
  by_cases hdummy : s.dummyRun = true
  · rw [if_pos hdummy]
    refine .inr ⟨_, hpages, by rw [hdummy, Bool.true_or], rfl, rfl, ?_, ?_⟩ <;>
      simp [runTest, MainState.record]
  · rw [if_neg hdummy]
    cases hmap : mapFirst cfg.flags s.vm s.mappedWindow with
    | none => exact .inl ⟨hpages, Bool.eq_false_of_not_eq_true hdummy, rfl, rfl⟩
    | some mappedWindow =>
      refine .inr ⟨_, hpages, Bool.or_true _, rfl, rfl, ?_, ?_⟩ <;>
        simp [runTest, MainState.record]

/-- The program gets to the pages of the window if `map_window` succeeds, whatever was mapped
before. -/
theorem WindowSetUp.reaches_eq (h : WindowSetUp cfg s) :
    (cfg.windows s).reaches s.dummyRun s.windowNum =
      (s.dummyRun || (mapFirst cfg.flags s.vm s.mappedWindow).isSome) := by
  rw [WindowConfig.reaches, ← h.vm, mapFirst_isSome_eq _ s.vm 0 s.mappedWindow]
  rfl

/-- The test of a window, as long as no restart is asked for in its course. -/
theorem StageProgress.testWindow (h : StageProgress cfg ws tested s l)
    (hl : l.point = .windowMapped) (hstep : testWindow cfg inp s l = (s', l'))
    (hrestart : s'.restart = false) : StageStep cfg ws tested s s' l' := by
  have hprogress := h.progress
  have hcpu := h.cpu (.inr (.inr hl))
  rw [hl] at hprogress
  obtain ⟨hleft, hset⟩ : WindowsLeft cfg ws tested s ∧ WindowSetUp cfg s := hprogress
  have htest := (TestStep.testWindow cfg inp s l).1
  rw [hstep] at htest
  have hsame := htest.sameWindows hrestart
  have hrerun := htest.rerunTest.trans (h.rerunTest (by simp [hl]))
  have hwindows := (hsame.testedWindows_eq cfg).trans h.windows
  have hreaches := hset.reaches_eq
  obtain ⟨hpages, heq⟩ | ⟨-, hdummy, hmap, heq⟩ | ⟨s₁, hpages, hmap, heq, hnum, hend, hlog⟩ :=
    testWindow_master cfg inp s hcpu
  · obtain ⟨rfl, rfl⟩ := Prod.mk.inj (hstep.symm.trans heq)
    rw [mapFirst, if_pos hpages, Option.isSome_some, Bool.or_true] at hreaches
    have hnext := hleft.next hset hreaches hsame rfl rfl (if_pos hpages).symm
    rw [List.append_nil] at hnext
    exact .quiet (List.append_nil _).symm rfl ⟨hwindows, fun _ => hcpu, fun _ => hrerun, hnext⟩
  · obtain ⟨rfl, rfl⟩ := Prod.mk.inj (hstep.symm.trans heq)
    rw [hdummy, hmap, Option.isSome_none, Bool.or_false] at hreaches
    have hsplit := hleft.split
    rw [hset.chosen, hdummy, WindowConfig.testedFrom_of_not_reaches hreaches, List.append_nil]
      at hsplit
    exact .quiet (List.append_nil _).symm rfl ⟨h.windows, by simp [CpuState.RunsTest],
      fun _ => hrerun, hsplit ▸ List.prefix_refl _, fun _ => hsplit⟩
  · obtain ⟨rfl, rfl⟩ := Prod.mk.inj (hstep.symm.trans heq)
    exact ⟨_, hlog, hwindows, fun _ => hcpu, fun _ => hrerun,
      hleft.next hset (hreaches.trans hmap) hsame hnum hend (if_neg hpages).symm⟩

/-- A step inside `test_all_windows`, or the entry into `main` after a move. -/
theorem StageProgress.mainStep (h : StageProgress cfg ws tested s l)
    (henabled : s.enabled s.testNum = true)
    (hpoint : l.point.InTest ∨ ∃ target, l.point = .runAt target)
    (hmoved : (∃ target, l.point = .runAt target) →
      s.testNum = s.testSequence.read inp.beyond s.testNumIndex)
    (hstep : mainStep cfg inp (s, l) = some (s', l')) (hrestart : s'.restart = false) :
    StageStep cfg ws tested s s' l' := by
  cases hp : l.point with
  | loopTop | testDone | finished => simp [hp, WaitPoint.InTest] at hpoint
  | testReady =>
    simp only [Memtest.mainStep, segment, hp, Option.some.injEq] at hstep
    rw [if_pos (by simpa [MainState.record] using henabled)] at hstep
    have hnext := h.enterTest hp
    rwa [hstep] at hnext
  | windowEntry =>
    simp only [Memtest.mainStep, segment, hp, Option.some.injEq] at hstep
    have hnext := h.chooseWindow hp
    rwa [hstep] at hnext
  | windowChosen =>
    simp only [Memtest.mainStep, segment, hp, Option.some.injEq] at hstep
    have hnext := h.setupWindow hp
    rwa [hstep] at hnext
  | windowMapped =>
    simp only [Memtest.mainStep, segment, hp, Option.some.injEq] at hstep
    exact h.testWindow hp hstep hrestart
  | runAt target =>
    have htest := hmoved ⟨target, hp⟩
    have hrerun := h.rerunTest (by simp [hp])
    have hprogress := h.progress
    rw [hp] at hprogress
    simp only [Memtest.mainStep, segment, hp, Option.some.injEq, Prod.mk.injEq] at hstep
    obtain ⟨rfl, rfl⟩ := hstep
    have hsame : SameWindows s (s.fetchTest inp.beyond) := ⟨rfl, htest.symm, rfl⟩
    refine .quiet rfl rfl ⟨(hsame.testedWindows_eq cfg).trans h.windows,
      by simp [CpuState.RunsTest], fun _ => hrerun, ?_⟩
    rw [ProgressAt, if_neg (by simp [MainState.fetchTest, MainState.record, hrerun])]
    exact BeforeWindow.congr hprogress hsame rfl rfl

end

end Memtest
