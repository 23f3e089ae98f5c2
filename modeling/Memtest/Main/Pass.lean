import Memtest.Main.Rotation
import Mathlib.Algebra.BigOperators.Group.List.Basic
import Mathlib.Data.List.ProdSigma

/-!
# A whole pass, and the tests that every CPU should run

From its start to its end, a pass is a sequence of tests, each with the CPU that is its first
master (`TestBlocks`). Which tests these are is known from the schedule, and the stages and masters
of each of them from the rotation, so a stage with a master can be counted in the log of a pass,
together with the windows it is run in (`RunsTimes`).

The own-address tests are to be run with every CPU as the master. `ownAddressTests_iff` says in
which passes they are.
-/

namespace Memtest

variable {cfg : MainConfig} {inp : Input} {s s' : MainState} {l l' : CpuState}

/-! ### Counting stages -/

/-- The tests that start in some events. -/
def startedTests (events : List MainEvent) : List ℤ :=
  events.filterMap fun
    | .startTest testNum => some testNum
    | _ => none

theorem startedTests_append (events events' : List MainEvent) :
    startedTests (events ++ events') = startedTests events ++ startedTests events' :=
  List.filterMap_append

theorem startedTests_of_outside {events : List MainEvent} (h : OutsideTest events) :
    startedTests events = [] := by
  refine List.filterMap_eq_nil_iff.mpr fun e he => ?_
  have hout := h e he
  cases e with
  | startTest => exact hout.elim
  | _ => rfl

/-- The windows in which a stage of a test is run by a master. -/
def stageWindows (testNum : ℤ) (stage masterCpu : ℕ) (events : List MainEvent) : List ℕ :=
  events.filterMap fun
    | .runTest testNum' stage' masterCpu' _ windowNum =>
        if testNum' = testNum ∧ stage' = stage ∧ masterCpu' = masterCpu then some windowNum
        else none
    | _ => none

theorem stageWindows_append (t : ℤ) (stage masterCpu : ℕ) (events events' : List MainEvent) :
    stageWindows t stage masterCpu (events ++ events') =
      stageWindows t stage masterCpu events ++ stageWindows t stage masterCpu events' :=
  List.filterMap_append

/-- How often a stage of a test has been gone through by a master, each time in the same windows.
The windows are those of the calls of `run_test` in the log, so a stage that has been left without
testing anything is not taken for one that has been run. -/
structure RunsTimes (t : ℤ) (stage masterCpu n : ℕ) (ws : List ℕ) (events : List MainEvent) :
    Prop where
  count : events.count (.endStage t stage masterCpu) = n
  windows : stageWindows t stage masterCpu events = (List.replicate n ws).flatten

section

variable {t : ℤ} {stage masterCpu n m : ℕ} {ws : List ℕ} {events events' : List MainEvent}

theorem RunsTimes.append (h : RunsTimes t stage masterCpu n ws events)
    (h' : RunsTimes t stage masterCpu m ws events') :
    RunsTimes t stage masterCpu (n + m) ws (events ++ events') where
  count := by rw [List.count_append, h.count, h'.count]
  windows := by
    rw [stageWindows_append, h.windows, h'.windows, List.replicate_add, List.flatten_append]

/-- Events without a window of the stage and without its end. -/
theorem RunsTimes.zero (hend : .endStage t stage masterCpu ∉ events)
    (hrun : ∀ iterations windowNum, .runTest t stage masterCpu iterations windowNum ∉ events) :
    RunsTimes t stage masterCpu 0 ws events where
  count := List.count_eq_zero.mpr hend
  windows := by
    refine List.filterMap_eq_nil_iff.mpr fun e he => ?_
    cases e with
    | runTest t' stage' masterCpu' iterations windowNum =>
      refine if_neg ?_
      rintro ⟨rfl, rfl, rfl⟩
      exact hrun iterations windowNum he
    | _ => rfl

theorem RunsTimes.once_iff (h : RunsTimes t stage masterCpu n ws events) :
    RunsTimes t stage masterCpu 1 ws events ↔ n = 1 :=
  ⟨fun h' => h.count.symm.trans h'.count, fun hn => hn ▸ h⟩

theorem RunsTimes.outside (h : OutsideTest events) (t : ℤ) (stage masterCpu : ℕ) (ws : List ℕ) :
    RunsTimes t stage masterCpu 0 ws events :=
  .zero (fun hmem => h _ hmem) fun _ _ hmem => h _ hmem

/-- The block of a stage, with its end. -/
theorem RunsTimes.block (h : ∀ e ∈ events, e.InStage t stage masterCpu)
    (hwindows : runWindows events = ws) :
    RunsTimes t stage masterCpu 1 ws (events ++ [.endStage t stage masterCpu]) where
  count := by
    have hnone : events.count (.endStage t stage masterCpu) = 0 :=
      List.count_eq_zero.mpr fun hmem => h _ hmem
    rw [List.count_append, hnone, List.count_singleton_self]
  windows := by
    have hall : stageWindows t stage masterCpu events = runWindows events := by
      refine List.filterMap_congr fun e he => ?_
      cases e with
      | runTest => exact if_pos (h _ he)
      | _ => rfl
    rw [stageWindows_append, hall, hwindows]
    simp [stageWindows]

/-- The block of another stage. -/
theorem RunsTimes.of_ne {t' : ℤ} {stage' masterCpu' : ℕ}
    (h : ∀ e ∈ events, e.InStage t' stage' masterCpu')
    (hne : ¬(t = t' ∧ stage = stage' ∧ masterCpu = masterCpu')) :
    RunsTimes t stage masterCpu 0 ws (events ++ [.endStage t' stage' masterCpu']) := by
  refine .zero (fun hmem => ?_) fun iterations windowNum hmem => ?_
  · obtain hmem | hmem := List.mem_append.mp hmem
    · exact h _ hmem
    · obtain ⟨ht, hstage, hmaster⟩ := MainEvent.endStage.inj (List.mem_singleton.mp hmem)
      exact hne ⟨ht, hstage, hmaster⟩
  · obtain hmem | hmem := List.mem_append.mp hmem
    · exact hne (h _ hmem)
    · exact absurd (List.mem_singleton.mp hmem) (by simp)

end

/-- No test starts in a stage of another. -/
theorem StageBlocks.startedTests_eq {t : ℤ} {complete : List ℕ → Prop} {rounds : List (ℕ × ℕ)}
    {stages : List MainEvent} (h : StageBlocks t complete rounds stages) :
    startedTests stages = [] := by
  induction h with
  | nil => rfl
  | @stage rounds events block masterCpu stage _ hblock _ ih =>
    have hnone : startedTests block = [] := List.filterMap_eq_nil_iff.mpr fun e he => by
      have hin := hblock e he
      cases e with
      | startTest => exact hin.elim
      | _ => rfl
    rw [startedTests_append, startedTests_append, ih, hnone]
    rfl

/-- A stage with a master is counted in the blocks of its test. -/
theorem StageBlocks.runsTimes {t : ℤ} {windows : ℤ → List ℕ} {rounds : List (ℕ × ℕ)}
    {stages : List MainEvent} (h : StageBlocks t (· = windows t) rounds stages) (t' : ℤ)
    (stage masterCpu : ℕ) :
    RunsTimes t' stage masterCpu (if t' = t then rounds.count (masterCpu, stage) else 0)
      (windows t') stages := by
  induction h with
  | nil =>
    rw [List.count_nil, ite_self]
    exact .zero List.not_mem_nil fun _ _ => List.not_mem_nil
  | @stage rounds events block masterCpu' stage' _ hblock hcomplete ih =>
    by_cases heq : t' = t ∧ stage = stage' ∧ masterCpu = masterCpu'
    · obtain ⟨rfl, rfl, rfl⟩ := heq
      have happend := ih.append (.block hblock hcomplete)
      rw [if_pos rfl] at happend ⊢
      rwa [List.count_append, List.count_singleton_self]
    · have happend := ih.append (.of_ne hblock heq)
      by_cases ht : t' = t
      · have hnot : (masterCpu, stage) ∉ [(masterCpu', stage')] := fun hmem => by
          obtain ⟨hmaster, hstage⟩ := Prod.mk.inj (List.mem_singleton.mp hmem)
          exact heq ⟨ht, hstage, hmaster⟩
        rw [if_pos ht] at happend ⊢
        rwa [List.count_append, List.count_eq_zero.mpr hnot]
      · rwa [if_neg ht] at happend ⊢

/-- What a whole test adds to a log. -/
theorem TestLog.append_eq {t : ℤ} {windows : ℤ → List ℕ} {rounds : List (ℕ × ℕ)}
    {log₀ log : List MainEvent} (h : TestLog t (· = windows t) rounds OutsideTest log₀ log) :
    ∃ events, log = log₀ ++ events ∧ startedTests events = [t] ∧ ∀ t' stage masterCpu,
      RunsTimes t' stage masterCpu (if t' = t then rounds.count (masterCpu, stage) else 0)
        (windows t') events := by
  obtain ⟨head, stages, tail, hlog, hhead, hstages, htail⟩ := h
  refine ⟨_, hlog, ?_, fun t' stage masterCpu => ?_⟩
  · rw [startedTests_append, startedTests_of_outside hhead, List.nil_append]
    change t :: startedTests (stages ++ tail) = [t]
    rw [startedTests_append, hstages.startedTests_eq, startedTests_of_outside htail,
      List.nil_append]
  · have hstart : RunsTimes t' stage masterCpu 0 (windows t') [.startTest t] :=
      .zero (by simp) (by simp)
    have hall := (RunsTimes.outside hhead t' stage masterCpu (windows t')).append (hstart.append
      ((hstages.runsTimes t' stage masterCpu).append (.outside htail t' stage masterCpu _)))
    rwa [Nat.zero_add, Nat.zero_add, Nat.add_zero] at hall

/-! ### The tests of a pass -/

/-- The master a test starts with: in SEQ mode the rotation of a test ends with CPU 0. -/
def firstMaster (masterCpu : ℕ) (tests : List (ℤ × ℕ)) : ℕ :=
  if tests = [] then masterCpu else 0

/-- The log of some tests, each with its first master, in a CPU mode. Every stage of a test is run
in the windows of the test. -/
inductive TestBlocks (cfg : MainConfig) (windows : ℤ → List ℕ) (mode : CpuMode) (masterCpu : ℕ)
    (log₀ : List MainEvent) : List (ℤ × ℕ) → List MainEvent → Prop
  | nil : TestBlocks cfg windows mode masterCpu log₀ [] log₀
  | outside {tests : List (ℤ × ℕ)} {log events : List MainEvent} :
      TestBlocks cfg windows mode masterCpu log₀ tests log → OutsideTest events →
      TestBlocks cfg windows mode masterCpu log₀ tests (log ++ events)
  | test {tests : List (ℤ × ℕ)} {log log' : List MainEvent} {t : ℤ} {first : ℕ} :
      TestBlocks cfg windows mode masterCpu log₀ tests log → first ∈ cfg.enabledCpus →
      (mode = .seq → first = firstMaster masterCpu tests) →
      TestLog t (· = windows t) (cfg.testRounds mode t first) OutsideTest log log' →
      TestBlocks cfg windows mode masterCpu log₀ (tests ++ [(t, first)]) log'

section

variable {windows : ℤ → List ℕ} {mode : CpuMode} {masterCpu : ℕ} {log₀ log : List MainEvent}
  {tests : List (ℤ × ℕ)}

/-- How often a stage of a test is run by a master in some tests. -/
def MainConfig.timesRun (cfg : MainConfig) (mode : CpuMode) (tests : List (ℤ × ℕ)) (t : ℤ)
    (stage cpu : ℕ) : ℕ :=
  (tests.map fun test =>
    if t = test.1 then (cfg.testRounds mode t test.2).count (cpu, stage) else 0).sum

theorem MainConfig.timesRun_append (tests tests' : List (ℤ × ℕ)) (t : ℤ) (stage cpu : ℕ) :
    cfg.timesRun mode (tests ++ tests') t stage cpu =
      cfg.timesRun mode tests t stage cpu + cfg.timesRun mode tests' t stage cpu := by
  rw [timesRun, List.map_append, List.sum_append]
  rfl

theorem MainConfig.timesRun_of_not_mem {t : ℤ} (h : t ∉ tests.map Prod.fst) (stage cpu : ℕ) :
    cfg.timesRun mode tests t stage cpu = 0 := by
  refine List.sum_eq_zero fun n hn => ?_
  obtain ⟨test, htest, rfl⟩ := List.mem_map.mp hn
  have hne : t ≠ test.1 := fun ht => h (ht ▸ List.mem_map_of_mem htest)
  exact if_neg hne

/-- The tests and their rounds can be read off the log. -/
theorem TestBlocks.append_eq (h : TestBlocks cfg windows mode masterCpu log₀ tests log) :
    ∃ events, log = log₀ ++ events ∧ startedTests events = tests.map Prod.fst ∧
      ∀ t stage cpu, RunsTimes t stage cpu (cfg.timesRun mode tests t stage cpu) (windows t)
        events := by
  induction h with
  | nil => exact ⟨[], (List.append_nil _).symm, rfl, fun _ _ _ => ⟨rfl, rfl⟩⟩
  | outside _ hout ih =>
    obtain ⟨events, rfl, hstarted, hruns⟩ := ih
    refine ⟨_, List.append_assoc .., ?_, fun t stage cpu => ?_⟩
    · rw [startedTests_append, hstarted, startedTests_of_outside hout, List.append_nil]
    · exact (hruns t stage cpu).append (.outside hout t stage cpu (windows t))
  | @test tests log log' t first _ _ _ hlog ih =>
    obtain ⟨events, rfl, hstarted, hruns⟩ := ih
    obtain ⟨events', rfl, hstarted', hruns'⟩ := hlog.append_eq
    refine ⟨_, List.append_assoc .., ?_, fun t' stage cpu => ?_⟩
    · rw [startedTests_append, hstarted, hstarted', List.map_append]
      rfl
    · have hboth := (hruns t' stage cpu).append (hruns' t' stage cpu)
      rw [cfg.timesRun_append]
      convert hboth using 2
      by_cases ht : t' = t
      · subst ht
        simp [MainConfig.timesRun]
      · simp [MainConfig.timesRun, ht]

/-- Where a test stands in the pass, and its first master. -/
theorem TestBlocks.first (h : TestBlocks cfg windows mode masterCpu log₀ tests log)
    {before after : List (ℤ × ℕ)} {t : ℤ} {first : ℕ}
    (heq : tests = before ++ (t, first) :: after) :
    first ∈ cfg.enabledCpus ∧ (mode = .seq → first = firstMaster masterCpu before) := by
  induction h generalizing after with
  | nil => exact absurd heq.symm (by simp)
  | outside _ _ ih => exact ih heq
  | @test tests _ _ t' first' _ hfirst hmaster _ ih =>
    obtain rfl | ⟨after', test, rfl⟩ := after.eq_nil_or_concat
    · obtain ⟨rfl, htest⟩ := List.append_inj' heq rfl
      obtain ⟨rfl, rfl⟩ := Prod.mk.inj (List.singleton_inj.mp htest)
      exact ⟨hfirst, hmaster⟩
    · rw [List.concat_eq_append, ← List.cons_append, ← List.append_assoc] at heq
      exact ih (List.append_inj' heq rfl).1

/-- A test that starts once has the rounds of its one start. -/
theorem TestBlocks.runsTimes (h : TestBlocks cfg windows mode masterCpu log₀ tests log)
    {events : List MainEvent} (hlog : log = log₀ ++ events) {before after : List (ℤ × ℕ)} {t : ℤ}
    {first : ℕ} (heq : tests = before ++ (t, first) :: after)
    (hnodup : (tests.map Prod.fst).Nodup) (stage cpu : ℕ) :
    RunsTimes t stage cpu ((cfg.testRounds mode t first).count (cpu, stage)) (windows t)
      events := by
  obtain ⟨events', hlog', -, hruns⟩ := h.append_eq
  obtain rfl := List.append_cancel_left (hlog.symm.trans hlog')
  rw [heq, List.map_append, List.map_cons] at hnodup
  have hmem := (List.nodup_cons.mp (List.nodup_middle.mp hnodup)).1
  rw [List.mem_append, not_or] at hmem
  have hone : cfg.timesRun mode [(t, first)] t stage cpu =
      (cfg.testRounds mode t first).count (cpu, stage) := by
    simp [MainConfig.timesRun]
  have hruns := hruns t stage cpu
  rwa [heq, ← List.singleton_append, cfg.timesRun_append, cfg.timesRun_append,
    cfg.timesRun_of_not_mem hmem.1, cfg.timesRun_of_not_mem hmem.2, hone, Nat.zero_add,
    Nat.add_zero] at hruns

/-! ### The blocks along a run -/

/-- A pass is about to start: CPU 0 is in front of a trip of the main loop and a flag tells it to
begin a run or a pass. -/
def StartsPass (t : MainState × CpuState) : Prop :=
  t.2.point = .loopTop ∧ (t.1.startRun = true ∨ t.1.startPass = true)

/-- An enabled test is being run, behind some others. -/
structure RunsTest (cfg : MainConfig) (windows : ℤ → List ℕ) (mode : CpuMode) (masterCpu : ℕ)
    (log₀ : List MainEvent) (t : MainState × CpuState) : Prop where
  restart : t.1.restart = false
  settings : ∀ testNum, cfg.testedWindows t.1 testNum = windows testNum
  test : ∃ tests log testNum first, TestBlocks cfg windows mode masterCpu log₀ tests log ∧
    first ∈ cfg.enabledCpus ∧ (mode = .seq → first = firstMaster masterCpu tests) ∧
    RunsStage cfg log testNum mode first (windows testNum) True t

/-- Some tests have been run, and the next one is to start or is not enabled. Unless the pass has
come to its end, its tests have the windows they had at its start. -/
structure BetweenTests (cfg : MainConfig) (windows : ℤ → List ℕ) (mode : CpuMode) (masterCpu : ℕ)
    (log₀ : List MainEvent) (t : MainState × CpuState) : Prop where
  restart : t.1.restart = false
  cpuMode : t.1.cpuMode = mode
  settings : StartsPass t ∨ t.2.point = .finished ∨
    ∀ testNum, cfg.testedWindows t.1 testNum = windows testNum
  tests : ∃ tests, TestBlocks cfg windows mode masterCpu log₀ tests t.1.log ∧
    (mode = .seq → t.1.masterCpu = firstMaster masterCpu tests)
  point : (t.2.point = .loopTop ∨ t.2.point = .finished) ∧ t.1.startTest = true ∨
    (t.2.point = .testReady ∨ t.2.point = .testDone) ∧ t.1.enabled t.1.testNum = false

/-- A state of a run that has come through some tests, as long as no restart has been asked for or
made. -/
def InBlocks (cfg : MainConfig) (windows : ℤ → List ℕ) (mode : CpuMode) (masterCpu : ℕ)
    (log₀ : List MainEvent) (t : MainState × CpuState) : Prop :=
  t.1.restart = true ∨ (∃ log, t.1.log = log ++ [.restart] ∧ StartsPass t) ∨
    RunsTest cfg windows mode masterCpu log₀ t ∨ BetweenTests cfg windows mode masterCpu log₀ t

/-- The limits are what they were, and the dummy run is not over. -/
theorem SameWindows.settings (hlimits : s'.limits = s.limits) (hdummy : s'.dummyRun = s.dummyRun)
    (h : ∀ testNum, cfg.testedWindows s testNum = windows testNum) (testNum : ℤ) :
    cfg.testedWindows s' testNum = windows testNum := by
  rw [← h testNum, MainConfig.testedWindows, MainConfig.testedWindows, hlimits, hdummy]

/-- The epilogue leaves the windows of the tests as they are, as long as the pass goes on. -/
theorem epilogue_settings (heq : epilogue cfg inp s = (s', l'.point)) :
    StartsPass (s', l') ∨ l'.point = .finished ∨
      s'.limits = s.limits ∧ s'.dummyRun = s.dummyRun := by
  obtain ⟨s₁, hs₁⟩ : ∃ s₁, s₁ = checkInput cfg s inp.menus := ⟨_, rfl⟩
  have hsame : s₁.restart = false → s₁.limits = s.limits ∧ s₁.dummyRun = s.dummyRun := by
    intro hrestart
    have hkeep := checkInput_keep cfg s inp.menus
    rw [← hs₁] at hkeep
    exact ⟨(hkeep.resolve_left (by simp [hrestart])).1.limits, by rw [hs₁, checkInput_dummyRun]⟩
  have hnext : ∀ s₂, s₂.limits = s.limits ∧ s₂.dummyRun = s.dummyRun →
      epilogue cfg inp s = nextTest inp s₂ → StartsPass (s', l') ∨ l'.point = .finished ∨
        s'.limits = s.limits ∧ s'.dummyRun = s.dummyRun := by
    intro s₂ hs₂ heq₂
    obtain ⟨_, _, _, _, _, _, point, hnext, hcases⟩ := nextTest_eq inp s₂
    obtain ⟨rfl, hpoint⟩ := Prod.mk.inj (heq.symm.trans (heq₂.trans hnext))
    rw [← hpoint] at hcases
    obtain ⟨-, ⟨-, hdummy⟩, -⟩ | ⟨-, hpass, hloop | hfinished⟩ := hcases
    · exact .inr (.inr ⟨hs₂.1, hdummy.trans hs₂.2⟩)
    · exact .inl ⟨hloop, hpass⟩
    · exact .inr (.inl hfinished)
  obtain ⟨-, heq'⟩ | ⟨hrestart, -, heq'⟩ | ⟨hrestart, -, heq'⟩ := epilogue_cases cfg inp s hs₁
  · obtain ⟨rfl, hl'⟩ := Prod.mk.inj (heq.symm.trans heq')
    exact .inl ⟨hl', .inl rfl⟩
  · exact hnext (s₁.record (.indexTest s₁.testNum)) (hsame hrestart) heq'
  · obtain ⟨-, heq''⟩ | ⟨-, -, -, heq''⟩ | ⟨next, -, -, heq''⟩ := endStage_cases cfg inp s₁
    · obtain ⟨rfl, -⟩ := Prod.mk.inj (heq.symm.trans (heq'.trans heq''))
      exact .inr (.inr (hsame hrestart))
    · obtain ⟨rfl, -⟩ := Prod.mk.inj (heq.symm.trans (heq'.trans heq''))
      exact .inr (.inr (hsame hrestart))
    · exact hnext (s₁.afterStage 0 next) (hsame hrestart) (heq'.trans heq'')

theorem Sound.mem_enabledCpus {point : WaitPoint} (h : Sound cfg s point) :
    s.masterCpu ∈ cfg.enabledCpus := by
  simp [MainConfig.enabledCpus, h.masterCpu]

/-- The next test starts, or is passed over. -/
theorem TestBlocks.start (h : TestBlocks cfg windows mode masterCpu log₀ tests s.log)
    (hmaster : mode = .seq → s.masterCpu = firstMaster masterCpu tests)
    (hcpu : s.masterCpu ∈ cfg.enabledCpus) (hrestart : s.restart = false)
    (hmode : s.cpuMode = mode)
    (hsettings : ∀ testNum, cfg.testedWindows s testNum = windows testNum)
    (hstart : s.startRun = true ∨ s.startPass = true ∨ s.startTest = true) (beyond : ℤ)
    (hrange : 0 ≤ testToStart s ∧ testToStart s < (numTestPatterns : ℤ))
    (hl' : l'.point = .testReady) :
    InBlocks cfg windows mode masterCpu log₀ (prologue beyond s, l') := by
  have hrestart' := (prologue_flags beyond s).1.trans hrestart
  obtain ⟨hlimits, hdummy⟩ := prologue_settings beyond s
  have hsettings' := SameWindows.settings hlimits hdummy hsettings
  cases henabled : s.enabled (testToStart s) with
  | true =>
    refine .inr (.inr (.inl ⟨hrestart', hsettings', tests, s.log, testToStart s, s.masterCpu, h,
      hcpu, hmaster, ?_⟩))
    rw [← hmode, ← hsettings]
    exact .start beyond hstart henabled hrange True hl'
  | false =>
    obtain ⟨htest, head, hlog, hhead⟩ := prologue_of_start beyond hstart
    obtain ⟨-, hmode', hen, -⟩ := prologue_of_start_fields beyond hstart
    refine .inr (.inr (.inr ⟨hrestart', hmode'.trans hmode, .inr (.inr hsettings'),
      ⟨tests, ?_, fun hseq => ?_⟩, .inr ⟨.inl hl', ?_⟩⟩))
    · rw [show (prologue beyond s, l').1.log = (prologue beyond s).log from rfl, hlog]
      refine h.outside (OutsideTest.append hhead fun e he => ?_)
      rw [startEvents, if_neg (by simp [henabled])] at he
      rw [List.mem_singleton.mp he]
      trivial
    · exact (prologue_flags beyond s).2.trans (hmaster hseq)
    · change (prologue beyond s).enabled (prologue beyond s).testNum = false
      rw [hen, htest, henabled]

/-- A step in an enabled test. -/
theorem RunsTest.mainStep (h : RunsTest cfg windows mode masterCpu log₀ (s, l))
    (hreg : Regular cfg (s, l)) (hno : inp.NoSkip) (hstart : ¬StartsPass (s, l))
    (hstep : Memtest.mainStep cfg inp (s, l) = some (s', l')) :
    InBlocks cfg windows mode masterCpu log₀ (s', l') := by
  obtain ⟨hrestart, hsettings, tests, log, t, first, hblocks, hfirst, hmaster, hrot⟩ := h
  replace hrestart : s.restart = false := hrestart
  have hagain : s'.restart = false → s'.limits = s.limits ∧ s'.dummyRun = s.dummyRun →
      RunsStage cfg log t mode first (windows t) True (s', l') →
      InBlocks cfg windows mode masterCpu log₀ (s', l') := fun hr hsame hrot' =>
    .inr (.inr (.inl ⟨hr, SameWindows.settings hsame.1 hsame.2 hsettings, tests, log, t, first,
      hblocks, hfirst, hmaster, hrot'⟩))
  have hread : (∃ target, l.point = .runAt target) →
      s.testNum = s.testSequence.read inp.beyond s.testNumIndex := by
    rintro ⟨target, hl⟩
    have hin := (hreg.scheduled.inPass.resolve_left (by simp [hrestart])).resolve_right
      fun h => h.1.elim (by simp [hl]) (by simp [hl])
    exact hin.testNum _
  have hpass : l.point = .loopTop → s.startPass = false := fun hl =>
    Bool.eq_false_of_not_eq_true (not_or.mp fun hp => hstart ⟨hl, hp⟩).2
  have hnext : l.point ≠ .testDone → s'.restart = false →
      RunsStage cfg log t mode first (windows t) True (s', l') := fun hne hr =>
    hrot.mainStep hne hpass hread (fun _ => hno) hstep hr
  obtain ⟨hl, rfl, -⟩ | ⟨hl, htest, -⟩ | ⟨⟨target, hl⟩, rfl, -⟩ | ⟨hl, heq⟩ :=
    mainStep_cases hstep
  · have hr : (prologue inp.beyond s).restart = false := (prologue_flags _ _).1.trans hrestart
    exact hagain hr (prologue_settings inp.beyond s) (hnext (by simp [hl]) hr)
  · have hne : l.point ≠ .testDone := fun heq => by
      rw [heq] at hl
      exact hl
    cases hr : s'.restart with
    | true => exact .inl hr
    | false =>
      exact hagain hr ⟨(htest.sameWindows hr).limits, htest.dummyRun⟩ (hnext hne hr)
  · exact hagain hrestart ⟨rfl, rfl⟩ (hnext (by simp [hl]) hrestart)
  · obtain ⟨hr, -, hpoint⟩ := epilogue_flags inp hreg.sound.masterCpu
    have hset := epilogue_settings heq
    rw [heq] at hr hpoint
    obtain ⟨hrot', -, hsame, -⟩ | hover | ⟨hlog, hrun, hl'⟩ :=
      hrot.epilogue hl hreg.sound.masterCpu (fun _ => hno) heq
    · exact hagain hr ⟨hsame.limits, hsame.dummyRun⟩ hrot'
    · have hlog := hover.log.mono fun tested htested => htested.2 (hover.bail trivial)
      exact .inr (.inr (.inr ⟨hr, hover.cpuMode,
        hset.imp_right (.imp_right fun h => SameWindows.settings h.1 h.2 hsettings),
        ⟨_, hblocks.test hfirst hmaster hlog, fun hseq =>
          (hover.masterCpu hseq).trans (by simp [firstMaster])⟩, .inl ⟨hpoint, hover.startTest⟩⟩))
    · exact .inr (.inl ⟨s.log, hlog, hl', .inl hrun⟩)

/-- The end of the trip of a test that is not enabled. -/
theorem BetweenTests.epilogue (h : BetweenTests cfg windows mode masterCpu log₀ (s, l))
    (hl : l.point = .testDone) (heq : epilogue cfg inp s = (s', l'.point)) :
    InBlocks cfg windows mode masterCpu log₀ (s', l') := by
  obtain ⟨s₁, hs₁⟩ : ∃ s₁, s₁ = checkInput cfg s inp.menus := ⟨_, rfl⟩
  have hlog₁ : s₁.log = s.log := by rw [hs₁, checkInput_log]
  have hkeep := checkInput_keep cfg s inp.menus
  rw [← hs₁] at hkeep
  have henabled : s.enabled s.testNum = false :=
    (h.point.resolve_left fun h => by simp [hl] at h).2
  have hsettings : ∀ testNum, cfg.testedWindows s testNum = windows testNum :=
    (h.settings.resolve_left fun hstart => by simp [StartsPass, hl] at hstart).resolve_left
      (by simp [hl])
  obtain ⟨-, heq'⟩ | ⟨hrestart, -, heq'⟩ | ⟨hrestart, hen, -⟩ := epilogue_cases cfg inp s hs₁
  · obtain ⟨rfl, hl'⟩ := Prod.mk.inj (heq.symm.trans heq')
    exact .inr (.inl ⟨s₁.log, rfl, hl', .inl rfl⟩)
  · obtain ⟨tests, hblocks, hmaster⟩ := h.tests
    obtain ⟨-, hmode⟩ := hkeep.resolve_left (by simp [hrestart])
    obtain ⟨hr, hm, hpoint⟩ := nextTest_flags inp (s₁.record (.indexTest s₁.testNum))
    obtain ⟨events, hlog, hevents⟩ := nextTest_events inp (s₁.record (.indexTest s₁.testNum))
    obtain ⟨_, _, _, _, _, _, _, hnext, -⟩ := nextTest_eq inp (s₁.record (.indexTest s₁.testNum))
    have hfields : s'.cpuMode = s₁.cpuMode ∧ s'.startTest = true := by
      rw [← heq', heq] at hnext
      rw [(Prod.mk.inj hnext).1]
      exact ⟨rfl, rfl⟩
    rw [← heq', heq] at hr hm hpoint hlog
    refine .inr (.inr (.inr ⟨hr.trans hrestart, hfields.1.trans (hmode.trans h.cpuMode),
      (epilogue_settings heq).imp_right (.imp_right fun h => SameWindows.settings h.1 h.2
        hsettings), ⟨tests, ?_, fun hseq => ?_⟩, .inl ⟨hpoint, hfields.2⟩⟩))
    · have hlog' : s'.log = s.log ++ .indexTest s₁.testNum :: events := by
        rw [← hlog₁]
        exact hlog.trans (List.append_assoc ..)
      exact hlog' ▸ hblocks.outside (List.forall_mem_cons.mpr ⟨trivial, hevents⟩)
    · have hm₁ : s₁.masterCpu = s.masterCpu := by rw [hs₁, checkInput_masterCpu]
      exact hm.trans (hm₁.trans (hmaster hseq))
  · obtain ⟨hconfig, -⟩ := hkeep.resolve_left (by simp [hrestart])
    rw [hconfig.enabled, hs₁, checkInput_testNum, henabled] at hen
    exact absurd hen Bool.false_ne_true

/-- A step between two enabled tests. -/
theorem BetweenTests.mainStep (h : BetweenTests cfg windows mode masterCpu log₀ (s, l))
    (hreg : Regular cfg (s, l)) (hreg' : Regular cfg (s', l')) (hstart : ¬StartsPass (s, l))
    (hstep : Memtest.mainStep cfg inp (s, l) = some (s', l')) :
    InBlocks cfg windows mode masterCpu log₀ (s', l') := by
  obtain ⟨hl | hl, htest⟩ | ⟨hl | hl, henabled⟩ := h.point
  all_goals replace hl : l.point = _ := hl
  · obtain ⟨tests, hblocks, hmaster⟩ := h.tests
    simp only [Memtest.mainStep, segment, hl, if_true, Option.some.injEq, Prod.mk.injEq] at hstep
    obtain ⟨rfl, rfl⟩ := hstep
    have hrange := hreg'.scheduled.inRange.resolve_right fun h => h.1.elim (by simp) (by simp)
    have htestNum := (prologue_of_start inp.beyond (.inr (.inr htest))).1
    exact hblocks.start hmaster hreg.sound.mem_enabledCpus h.restart h.cpuMode
      ((h.settings.resolve_left hstart).resolve_left (by simp [hl])) (.inr (.inr htest))
      inp.beyond (htestNum ▸ hrange.2) rfl
  · simp [Memtest.mainStep, segment, hl] at hstep
  · obtain ⟨tests, hblocks, hmaster⟩ := h.tests
    simp only [Memtest.mainStep, segment, hl, Option.some.injEq] at hstep
    rw [if_neg (by simpa [MainState.record] using henabled)] at hstep
    obtain ⟨rfl, rfl⟩ := Prod.mk.inj hstep
    exact .inr (.inr (.inr ⟨h.restart, h.cpuMode,
      .inr (.inr ((h.settings.resolve_left hstart).resolve_left (by simp [hl]))),
      ⟨tests, hblocks.outside (by simp [OutsideTest, MainEvent.OutsideTest]), hmaster⟩,
      .inr ⟨.inr rfl, henabled⟩⟩))
  · simp only [Memtest.mainStep, segment, hl, if_true, Option.some.injEq, Prod.mk.injEq] at hstep
    exact h.epilogue hl (Prod.ext hstep.1 (by rw [← hstep.2]))

theorem InBlocks.mainStep {t t' : MainState × CpuState}
    (h : InBlocks cfg windows mode masterCpu log₀ t) (hreg : Regular cfg t)
    (hreg' : Regular cfg t') (hno : inp.NoSkip) (hstart : ¬StartsPass t)
    (hstep : Memtest.mainStep cfg inp t = some t') :
    InBlocks cfg windows mode masterCpu log₀ t' := by
  obtain hrestart | ⟨-, -, hpass⟩ | hruns | hbetween := h
  · obtain ⟨hr, -⟩ | ⟨hlog, hrun, hl'⟩ := hreg.sound.mainStep_restart hrestart hstep
    · exact .inl hr
    · exact .inr (.inl ⟨t.1.log, hlog, hl', .inl hrun⟩)
  · exact absurd hpass hstart
  · exact hruns.mainStep hreg hno hstart hstep
  · exact hbetween.mainStep hreg hreg' hstart hstep

end

/-! ### The end of a pass -/

/-- An event inside a pass. -/
def MainEvent.InsidePass : MainEvent → Prop
  | .startPass .. | .endPass _ => False
  | _ => True

/-- The pass at whose start a log is still going on. -/
def PassOpen (log₁ log : List MainEvent) : Prop :=
  ∃ events, log = log₁ ++ events ∧ ∀ e ∈ events, e.InsidePass

/-- The pass has just ended. -/
def PassEnded (log₁ log : List MainEvent) : Prop :=
  ∃ log' passNum, log = log' ++ [.endPass passNum] ∧ PassOpen log₁ log'

section

variable {log₁ log : List MainEvent}

theorem PassOpen.append (h : PassOpen log₁ log) {events : List MainEvent}
    (hevents : ∀ e ∈ events, e.InsidePass) : PassOpen log₁ (log ++ events) := by
  obtain ⟨events', rfl, hevents'⟩ := h
  exact ⟨events' ++ events, List.append_assoc .., fun e he =>
    (List.mem_append.mp he).elim (hevents' e) (hevents e)⟩

theorem insidePass_startEvents (s : MainState) (testNum : ℤ) :
    ∀ e ∈ startEvents s testNum, e.InsidePass := fun e he => by
  obtain rfl | rfl := mem_startEvents he <;> trivial

/-- Inside a pass, the tests that start are added to the view. -/
theorem passView_append_inside {events : List MainEvent} (hevents : ∀ e ∈ events, e.InsidePass)
    {view : PassView} (hview : passView log = some view) :
    passView (log ++ events) =
      some { view with started := view.started ++ startedTests events } := by
  rw [passView_append, hview]
  clear hview
  induction events generalizing view with
  | nil => simp [startedTests]
  | cons e events ih =>
    have hrest : ∀ view : PassView, events.foldl passStep (some view) =
        some { view with started := view.started ++ startedTests events } :=
      fun view => ih fun e' he' => hevents e' (.tail _ he')
    have he := hevents e List.mem_cons_self
    cases e with
    | startPass | endPass => exact he.elim
    | startTest testNum =>
      refine (hrest _).trans ?_
      simp [startedTests]
    | readSequence | indexTest | runTest | endStage | restart => exact hrest view

/-- CPU 0 leaves a test. -/
theorem PassOpen.nextTest (h : PassOpen log₁ s.log) (heq : nextTest inp s = (s', l'.point)) :
    PassOpen log₁ s'.log ∨
      PassEnded log₁ s'.log ∧ (StartsPass (s', l') ∨ l'.point = .finished) := by
  obtain ⟨startRun, startPass, _, _, _, events, point, hnext, hcases⟩ := nextTest_eq inp s
  obtain ⟨rfl, hpoint⟩ := Prod.mk.inj (heq.symm.trans hnext)
  rw [← hpoint] at hcases
  obtain ⟨rfl, -, -⟩ | ⟨rfl, hpass, hloop | hfinished⟩ := hcases
  · exact .inl (h.append fun e he => by rw [List.mem_singleton.mp he]; trivial)
  all_goals
    have hended : PassEnded log₁ (s.log ++ [.readSequence (s.testNumIndex + 1),
        .endPass (s.passNum + 1)]) :=
      ⟨s.log ++ [.readSequence (s.testNumIndex + 1)], s.passNum + 1, by simp,
        h.append fun e he => by
        rw [List.mem_singleton.mp he]
        trivial⟩
  · exact .inr ⟨hended, .inl ⟨hloop, hpass⟩⟩
  · exact .inr ⟨hended, .inr hfinished⟩

theorem PassOpen.epilogue (h : PassOpen log₁ s.log) (heq : epilogue cfg inp s = (s', l'.point)) :
    PassOpen log₁ s'.log ∨
      PassEnded log₁ s'.log ∧ (StartsPass (s', l') ∨ l'.point = .finished) := by
  obtain ⟨s₁, hs₁⟩ : ∃ s₁, s₁ = checkInput cfg s inp.menus := ⟨_, rfl⟩
  replace h : PassOpen log₁ s₁.log := by rwa [hs₁, checkInput_log]
  have hafter : ∀ testStage masterCpu, PassOpen log₁ (s₁.afterStage testStage masterCpu).log :=
    fun _ _ => h.append (by simp [MainEvent.InsidePass])
  obtain ⟨-, heq'⟩ | ⟨-, -, heq'⟩ | ⟨-, -, heq'⟩ := epilogue_cases cfg inp s hs₁
  · obtain ⟨rfl, -⟩ := Prod.mk.inj (heq.symm.trans heq')
    exact .inl (h.append (by simp [MainEvent.InsidePass]))
  · exact PassOpen.nextTest (h.append (by simp [MainEvent.InsidePass])) (heq'.symm.trans heq)
  · obtain ⟨-, heq''⟩ | ⟨-, -, -, heq''⟩ | ⟨next, -, -, heq''⟩ := endStage_cases cfg inp s₁
    · obtain ⟨rfl, -⟩ := Prod.mk.inj (heq.symm.trans (heq'.trans heq''))
      exact .inl (hafter 0 0)
    · obtain ⟨rfl, -⟩ := Prod.mk.inj (heq.symm.trans (heq'.trans heq''))
      exact .inl (hafter 0 0)
    · exact (hafter 0 next).nextTest ((heq'.trans heq'').symm.trans heq)

/-- A step inside a pass. -/
theorem PassOpen.mainStep {t t' : MainState × CpuState} (h : PassOpen log₁ t.1.log)
    (hstart : ¬StartsPass t) (hstep : Memtest.mainStep cfg inp t = some t') :
    PassOpen log₁ t'.1.log ∨
      PassEnded log₁ t'.1.log ∧ (StartsPass t' ∨ t'.2.point = .finished) := by
  obtain ⟨s, l⟩ := t
  obtain ⟨s', l'⟩ := t'
  obtain ⟨hl, rfl, -⟩ | ⟨-, htest, -⟩ | ⟨-, rfl, -⟩ | ⟨-, heq⟩ := mainStep_cases hstep
  · obtain ⟨hrun, hpass⟩ := not_or.mp fun hp => hstart ⟨hl, hp⟩
    replace hrun : s.startRun = false := by simpa using hrun
    replace hpass : s.startPass = false := by simpa using hpass
    refine .inl ?_
    cases htest : s.startTest with
    | true =>
      rw [prologue_of_startTest inp.beyond hrun hpass htest]
      exact h.append (insidePass_startEvents s s.testNum)
    | false =>
      rw [prologue_of_resume inp.beyond hrun hpass htest, beginStage]
      split_ifs <;> exact h
  · obtain ⟨events, hlog, hevents⟩ := htest.log
    replace hlog : s'.log = s.log ++ events := hlog
    refine .inl ?_
    rw [hlog]
    refine h.append fun e he => ?_
    obtain rfl | ⟨_, _, rfl⟩ := hevents e he <;> trivial
  · exact .inl (h.append (by simp [MainEvent.InsidePass]))
  · exact h.epilogue heq

end

/-! ### A whole pass -/

/-- In the middle of a test the last event is not the end of a pass. -/
theorem TestLog.ne_endPass {t : ℤ} {complete : List ℕ → Prop} {rounds : List (ℕ × ℕ)}
    {stage masterCpu : ℕ} {tested : List ℕ} {log₀ log : List MainEvent}
    (h : TestLog t complete rounds (StageSoFar t stage masterCpu tested) log₀ log)
    (log' : List MainEvent) (passNum : ℕ) : log ≠ log' ++ [.endPass passNum] := by
  obtain ⟨head, stages, tail, rfl, -, hstages, htail⟩ := h
  intro heq
  have hlast : ∀ events e, log₀ ++ (head ++ .startTest t :: (stages ++ tail)) = events ++ [e] →
      e = .endPass passNum := fun events e h =>
    List.singleton_inj.mp (List.append_inj' (h.symm.trans heq) rfl).2
  obtain rfl | ⟨tail, e, rfl⟩ := tail.eq_nil_or_concat
  · cases hstages with
    | nil => exact absurd (hlast (log₀ ++ head) (.startTest t) (by simp)) nofun
    | @stage rounds events block masterCpu' stage' =>
      exact absurd (hlast (log₀ ++ (head ++ .startTest t :: (events ++ block)))
        (.endStage t stage' masterCpu') (by simp)) nofun
  · have he := hlast (log₀ ++ (head ++ .startTest t :: (stages ++ tail))) e (by simp)
    exact htail.inStage (.endPass passNum) (by simp [he])

theorem PassOpen.ne_endPass {log₀ log : List MainEvent} {passNum : ℕ} {due : List ℕ}
    (h : PassOpen (log₀ ++ [.startPass passNum due]) log) (log' : List MainEvent) (n : ℕ) :
    log ≠ log' ++ [.endPass n] := by
  obtain ⟨events, rfl, hevents⟩ := h
  intro heq
  obtain rfl | ⟨events, e, rfl⟩ := events.eq_nil_or_concat
  · rw [List.append_nil] at heq
    exact absurd (List.singleton_inj.mp (List.append_inj' heq rfl).2) nofun
  · rw [List.concat_eq_append, ← List.append_assoc] at heq
    have he := List.singleton_inj.mp (List.append_inj' heq rfl).2
    exact hevents (.endPass n) (by simp [he])

/-- A pass from its start to its end, with no other start in between. The log of the steps ends
with the end of the pass, so the last test has been left in the normal way and not by a restart. -/
structure WholePass (cfg : MainConfig) (inps : List Input) (t₀ t₁ : MainState × CpuState) :
    Prop where
  start : StartsPass t₀
  run : mainRun cfg inps t₀ = some t₁
  between : ∀ before inp after t, inps = before ++ inp :: after → before ≠ [] →
    mainRun cfg before t₀ = some t → ¬StartsPass t
  ended : ∃ events passNum, t₁.1.log = t₀.1.log ++ (events ++ [.endPass passNum])

/-- The log of a whole pass: the tests that are due, one after the other. -/
theorem WholePass.testBlocks {inps : List Input} {t₀ t₁ : MainState × CpuState}
    (h : WholePass cfg inps t₀ t₁) (hreg : Regular cfg t₀)
    (hbeyond : ∀ inp ∈ inps, (numTestPatterns : ℤ) ≤ inp.beyond)
    (hno : ∀ inp ∈ inps, inp.NoSkip) :
    ∃ tests, TestBlocks cfg (cfg.testedWindows t₀.1) t₀.1.cpuMode t₀.1.masterCpu t₀.1.log tests
        t₁.1.log ∧
      tests.map Prod.fst = t₀.1.due.map Nat.cast := by
  obtain ⟨hstart, hrun, hbetween, events, passNum, hended⟩ := h
  cases inps with
  | nil =>
    obtain rfl := Option.some.inj hrun
    simp at hended
  | cons inp inps =>
    obtain ⟨u, hu, hrun⟩ := Executions.exec_cons_eq_some.mp hrun
    obtain ⟨hprologue, hready⟩ := mainStep_loopTop hstart.1 hu
    have hregu := hreg.mainStep (hbeyond inp List.mem_cons_self) hu
    obtain ⟨n₀, hn₀⟩ : ∃ n₀, n₀ = if t₀.1.startRun = true then 0 else t₀.1.passNum := ⟨_, rfl⟩
    obtain ⟨log₁, hlog₁⟩ : ∃ log₁, log₁ = t₀.1.log ++ [.startPass n₀ t₀.1.due] := ⟨_, rfl⟩
    have hopen : PassOpen log₁ u.1.log := by
      rw [hprologue, prologue_of_startPass inp.beyond hstart.2, hlog₁, hn₀]
      exact ⟨.readSequence 0 :: startEvents t₀.1 (t₀.1.testSequence.read inp.beyond 0), by
        simp [startEvents], List.forall_mem_cons.mpr ⟨trivial, insidePass_startEvents _ _⟩⟩
    have hblocks : InBlocks cfg (cfg.testedWindows t₀.1) t₀.1.cpuMode t₀.1.masterCpu t₀.1.log
        u := by
      have hrange := hregu.scheduled.inRange.resolve_right fun h => h.1.elim (by simp [hready])
        (by simp [hready])
      rw [hprologue, (prologue_of_start inp.beyond (or_assoc.mp (.inl hstart.2))).1] at hrange
      rw [← Prod.eta u, hprologue]
      exact TestBlocks.nil.start (fun _ => rfl) hreg.sound.mem_enabledCpus
        (hreg.sound.restart_eq (by simp [hstart.1]) (by simp [hstart.1])) rfl (fun _ => rfl)
        (or_assoc.mp (.inl hstart.2)) inp.beyond hrange.2 hready
    obtain ⟨hreg₁, hpass, hblocks₁⟩ := Executions.exec_invariant
      (P := fun inp t => ((numTestPatterns : ℤ) ≤ inp.beyond ∧ inp.NoSkip) ∧ ¬StartsPass t)
      (I := fun t => Regular cfg t ∧
        (PassOpen log₁ t.1.log ∨
          PassEnded log₁ t.1.log ∧ (StartsPass t ∨ t.2.point = .finished)) ∧
        InBlocks cfg (cfg.testedWindows t₀.1) t₀.1.cpuMode t₀.1.masterCpu t₀.1.log t)
      (fun inp t t' hP hI hstep => by
        have hreg' := hI.1.mainStep hP.1.1 hstep
        refine ⟨hreg', ?_, hI.2.2.mainStep hI.1 hreg' hP.1.2 hP.2 hstep⟩
        obtain hopen | ⟨-, hstart | hfinished⟩ := hI.2.1
        · exact hopen.mainStep hP.2 hstep
        · exact absurd hstart hP.2
        · simp [Memtest.mainStep, segment, hfinished] at hstep)
      (fun before inp' after t heq ht => ⟨⟨hbeyond inp' (by simp [heq]), hno inp' (by simp [heq])⟩,
        hbetween (inp :: before) inp' after t (by rw [heq, List.cons_append]) (by simp)
          (Executions.exec_cons_eq_some.mpr ⟨u, hu, ht⟩)⟩)
      ⟨hregu, .inl hopen, hblocks⟩ hrun
    rw [← List.append_assoc] at hended
    -- the last event says that the pass has ended, so that the log is cut into whole tests
    obtain hopen₁ | ⟨⟨log', n, hlog', events', rfl, hinside⟩, hpoint⟩ := hpass
    · exact absurd hended ((hlog₁ ▸ hopen₁).ne_endPass _ _)
    obtain hrestart | ⟨log, hlog, -⟩ | hruns | hbetween := hblocks₁
    · have hquiet : t₁.2.point = .loopTop ∨ t₁.2.point = .finished := hpoint.imp_left And.left
      have hnot : t₁.1.restart = false := hreg₁.sound.restart_eq
        (by obtain h | h := hquiet <;> simp [h]) (by obtain h | h := hquiet <;> simp [h])
      exact absurd (hrestart.symm.trans hnot) Bool.false_ne_true.symm
    · exact absurd (List.singleton_inj.mp (List.append_inj' (hlog.symm.trans hended) rfl).2)
        (by simp)
    · obtain ⟨-, -, tests, log, t, first, -, -, -, _, hrot, -⟩ := hruns
      exact absurd hended (hrot.log.ne_endPass _ _)
    obtain ⟨tests, htests, -⟩ := hbetween.tests
    refine ⟨tests, htests, ?_⟩
    -- which tests they are is known from the schedule
    obtain ⟨view, hview, hstarted, -⟩ := hreg₁.scheduled.complete _ n [] hlog'
    have hview₁ : passView log₁ = some ⟨n₀, t₀.1.due, []⟩ := by
      rw [hlog₁]
      exact passView_append _ _
    obtain rfl := Option.some.inj ((passView_append_inside hinside hview₁).symm.trans hview)
    obtain ⟨all, hall, hfst, -⟩ := htests.append_eq
    have hall' : all = .startPass n₀ t₀.1.due :: (events' ++ [.endPass n]) := by
      refine List.append_cancel_left (hall.symm.trans (hlog'.trans ?_))
      rw [hlog₁]
      simp
    rw [← hfst, hall']
    change startedTests (events' ++ [.endPass n]) = _
    rw [startedTests_append]
    exact (List.append_nil _).trans hstarted

/-! ### The own-address tests -/

theorem MainConfig.mem_enabledCpus {cpu : ℕ} :
    cpu ∈ cfg.enabledCpus ↔ cpu < cfg.numAvailableCpus ∧ cfg.disabled cpu = false := by
  simp [enabledCpus]

theorem MainConfig.nodup_enabledCpus (cfg : MainConfig) : cfg.enabledCpus.Nodup :=
  List.nodup_range.filter _

theorem MainConfig.zero_mem_enabledCpus (cfg : MainConfig) : 0 ∈ cfg.enabledCpus :=
  mem_enabledCpus.mpr ⟨cfg.numAvailableCpus_pos, cfg.bsp_enabled⟩

theorem MainConfig.mem_masters {first cpu : ℕ} :
    cpu ∈ cfg.masters first cfg.numAvailableCpus ↔ cpu ∈ cfg.enabledCpus ∧ first ≤ cpu := by
  simp [masters, enabledCpus, and_assoc]

/-- Every round of a test comes once. -/
theorem MainConfig.nodup_testRounds (cfg : MainConfig) (mode : CpuMode) (t : ℤ) (first : ℕ) :
    (cfg.testRounds mode t first).Nodup := by
  rw [testRounds]
  split_ifs
  · exact (List.nodup_range.filter _).product List.nodup_range
  · exact List.nodup_range.map fun _ _ h => (Prod.mk.inj h).2

theorem MainConfig.mem_testRounds {mode : CpuMode} {t : ℤ} {first cpu stage : ℕ} :
    (cpu, stage) ∈ cfg.testRounds mode t first ↔ stage < (cfg.testPattern t).stages ∧
      if mode = .seq ∨ mode = .par ∧ (cfg.testPattern t).cpuMode = .seq then
        cpu ∈ cfg.enabledCpus ∧ first ≤ cpu
      else cpu = first := by
  rw [testRounds]
  split_ifs
  · rw [rounds, ← mem_masters, and_comm, ← List.mem_range]
    exact List.mem_product
  · simp [and_comm, eq_comm]

theorem MainConfig.count_testRounds {mode : CpuMode} {t : ℤ} {first cpu stage : ℕ} :
    (cfg.testRounds mode t first).count (cpu, stage) = 1 ↔
      (cpu, stage) ∈ cfg.testRounds mode t first :=
  ⟨fun h => List.count_pos_iff.mp (h ▸ Nat.one_pos),
    fun h => List.count_eq_one_of_mem (cfg.nodup_testRounds mode t first) h⟩

/-- The own-address tests have the column ONE, and so they are run by every CPU only if every test
is. -/
theorem MainConfig.rounds_ownAddress {mode : CpuMode} {t : ℤ} (ht : t = 1 ∨ t = 2) {first : ℕ}
    (hfirst : first ∈ cfg.enabledCpus) :
    (∀ cpu ∈ cfg.enabledCpus, ∀ stage < (cfg.testPattern t).stages,
      (cfg.testRounds mode t first).count (cpu, stage) = 1) ↔
      mode = .seq ∧ first = 0 ∨ cfg.enabledCpus.length = 1 := by
  have hcol : (cfg.testPattern t).cpuMode ≠ .seq ∧ 0 < (cfg.testPattern t).stages := by
    obtain rfl | rfl := ht <;> exact ⟨nofun, Nat.zero_lt_succ _⟩
  have hiff : (mode = .seq ∨ mode = .par ∧ (cfg.testPattern t).cpuMode = .seq) ↔ mode = .seq :=
    or_iff_left fun h => hcol.1 h.2
  simp only [count_testRounds, mem_testRounds, hiff]
  refine ⟨fun h => ?_, fun h cpu hcpu stage hstage => ⟨hstage, ?_⟩⟩
  · by_cases hseq : mode = .seq
    · have hzero := (h 0 cfg.zero_mem_enabledCpus 0 hcol.2).2
      rw [if_pos hseq] at hzero
      exact .inl ⟨hseq, Nat.le_zero.mp hzero.2⟩
    · have hall : ∀ cpu ∈ cfg.enabledCpus, cpu = first := fun cpu hcpu => by
        have heq := (h cpu hcpu 0 hcol.2).2
        rwa [if_neg hseq] at heq
      have hperm : cfg.enabledCpus.Perm [first] :=
        (List.perm_ext_iff_of_nodup cfg.nodup_enabledCpus (List.nodup_singleton first)).mpr
          fun cpu => ⟨fun hcpu => List.mem_singleton.mpr (hall cpu hcpu),
            fun hcpu => List.mem_singleton.mp hcpu ▸ hfirst⟩
      exact .inr hperm.length_eq
  · obtain ⟨rfl, rfl⟩ | hone := h
    · exact (if_pos rfl).mpr ⟨hcpu, Nat.zero_le cpu⟩
    · obtain ⟨c, hc⟩ := List.length_eq_one_iff.mp hone
      rw [hc, List.mem_singleton] at hcpu hfirst
      split_ifs
      · exact ⟨by simp [hc, hcpu], by rw [hcpu, hfirst]⟩
      · rw [hcpu, hfirst]

/-- The own-address tests, if they are enabled, go through all their stages once with every CPU as
the master: the master runs the test in each of the windows that have pages to test, and nowhere
else. This is what the user is promised whatever the sequencing mode is. -/
def OwnAddressTestsRun (cfg : MainConfig) (s : MainState) (events : List MainEvent) : Prop :=
  ∀ t : ℤ, t = 1 ∨ t = 2 → s.enabled t = true → ∀ cpu ∈ cfg.enabledCpus,
    ∀ stage < (cfg.testPattern t).stages,
      RunsTimes t stage cpu 1 (cfg.testedWindows s t) events

section

variable {tests : List (ℤ × ℕ)} {due : List ℕ}

/-- The first test of a pass. -/
theorem head?_due (h : tests.map Prod.fst = due.map Nat.cast) (n : ℕ) :
    due.head? = some n ↔ ∃ first after, tests = ((n : ℤ), first) :: after := by
  cases tests with
  | nil =>
    rw [List.map_nil, eq_comm, List.map_eq_nil_iff] at h
    simp [h]
  | cons test rest =>
    obtain ⟨d, ds, rfl, hcast, -⟩ := List.map_eq_cons_iff.mp h.symm
    obtain ⟨t, first⟩ := test
    simp [show t = d from hcast.symm]

/-- A test that is due. -/
theorem split_of_mem_due (h : tests.map Prod.fst = due.map Nat.cast) {n : ℕ} (hn : n ∈ due) :
    ∃ before first after, tests = before ++ ((n : ℤ), first) :: after := by
  have hmem : (n : ℤ) ∈ tests.map Prod.fst := h ▸ List.mem_map_of_mem hn
  obtain ⟨⟨t, first⟩, hmem, rfl⟩ := List.mem_map.mp hmem
  obtain ⟨before, after, heq⟩ := List.append_of_mem hmem
  exact ⟨before, first, after, heq⟩

/-- Whether an own-address test is run with every CPU depends on where it stands in the pass. -/
theorem TestBlocks.ownAddress_iff {windows : ℤ → List ℕ} {mode : CpuMode} {masterCpu : ℕ}
    {log₀ log events : List MainEvent}
    (h : TestBlocks cfg windows mode masterCpu log₀ tests log)
    (hlog : log = log₀ ++ events) (hnodup : (tests.map Prod.fst).Nodup)
    {before after : List (ℤ × ℕ)} {t : ℤ} {first : ℕ} (heq : tests = before ++ (t, first) :: after)
    (ht : t = 1 ∨ t = 2) :
    (∀ cpu ∈ cfg.enabledCpus, ∀ stage < (cfg.testPattern t).stages,
      RunsTimes t stage cpu 1 (windows t) events) ↔
      mode = .seq ∧ firstMaster masterCpu before = 0 ∨ cfg.enabledCpus.length = 1 := by
  obtain ⟨hfirst, hmaster⟩ := h.first heq
  simp only [fun stage cpu => (h.runsTimes hlog heq hnodup stage cpu).once_iff]
  rw [MainConfig.rounds_ownAddress ht hfirst]
  exact or_congr_left (and_congr_right fun hseq => by rw [hmaster hseq])

end

theorem MainState.mem_due {t : ℤ} (ht : t = 1 ∨ t = 2) (h : s.enabled t = true) :
    ∃ n : ℕ, n ∈ s.due ∧ (n : ℤ) = t := by
  obtain rfl | rfl := ht
  · exact ⟨1, List.mem_filter.mpr ⟨TestSequence.mem_order.mpr (by decide), h⟩, rfl⟩
  · exact ⟨2, List.mem_filter.mpr ⟨TestSequence.mem_order.mpr (by decide), h⟩, rfl⟩

/-- **Own-address tests.** In a whole pass in which the user skips no test, the own-address tests
are run with every CPU if all tests are, where CPU 0 is the master the first of them starts with,
or if there is only one CPU: exactly then.

In the other modes the main loop rotates the master for no test at all, so with a second CPU the
tests are run by one master only. In SEQ mode a pass starts with another master than CPU 0 only
where a rejected test sequence has made it start in the middle of a rotation; the first test of
the pass then lacks the CPUs before that one. -/
theorem ownAddressTests_iff {inps : List Input} {t₀ t₁ : MainState × CpuState}
    {events : List MainEvent}
    (hreach : Reachable cfg (fun inp => (numTestPatterns : ℤ) ≤ inp.beyond) t₀)
    (hbeyond : ∀ inp ∈ inps, (numTestPatterns : ℤ) ≤ inp.beyond)
    (hno : ∀ inp ∈ inps, inp.NoSkip) (hpass : WholePass cfg inps t₀ t₁)
    (hlog : t₁.1.log = t₀.1.log ++ events) :
    OwnAddressTestsRun cfg t₀.1 events ↔
      t₀.1.cpuMode = .seq ∧
        (t₀.1.masterCpu = 0 ∨ t₀.1.due.head? ≠ some 1 ∧ t₀.1.due.head? ≠ some 2) ∨
      cfg.enabledCpus.length = 1 ∨ t₀.1.enabled 1 = false ∧ t₀.1.enabled 2 = false := by
  obtain ⟨tests, htests, hdue⟩ := hpass.testBlocks (hreach.regular fun _ h => h) hbeyond hno
  have hnodup : (tests.map Prod.fst).Nodup := by
    rw [hdue]
    exact (t₀.1.testSequence.nodup_order.filter _).map Nat.cast_injective
  refine ⟨fun h => ?_, ?_⟩
  · by_cases hnone : t₀.1.enabled 1 = false ∧ t₀.1.enabled 2 = false
    · exact .inr (.inr hnone)
    by_cases hone : cfg.enabledCpus.length = 1
    · exact .inr (.inl hone)
    have hzero : ∀ before after t first, tests = before ++ (t, first) :: after →
        t = 1 ∨ t = 2 → t₀.1.enabled t = true →
        t₀.1.cpuMode = .seq ∧ firstMaster t₀.1.masterCpu before = 0 :=
      fun before after t first heq ht henabled =>
        ((htests.ownAddress_iff hlog hnodup heq ht).mp (h t ht henabled)).resolve_right hone
    have hnot : t₀.1.masterCpu ≠ 0 → ∀ n : ℕ, (n : ℤ) = 1 ∨ (n : ℤ) = 2 →
        t₀.1.due.head? ≠ some n := by
      intro hmaster n hn hhead
      obtain ⟨first, after, heq⟩ := (head?_due hdue n).mp hhead
      have henabled := (List.mem_filter.mp (List.mem_of_mem_head? hhead)).2
      exact hmaster (hzero [] after n first heq hn henabled).2
    obtain ⟨t, ht, henabled⟩ : ∃ t : ℤ, (t = 1 ∨ t = 2) ∧ t₀.1.enabled t = true := by
      by_contra hnot
      exact hnone ⟨by simpa using fun h => hnot ⟨1, .inl rfl, h⟩,
        by simpa using fun h => hnot ⟨2, .inr rfl, h⟩⟩
    obtain ⟨n, hn, rfl⟩ := MainState.mem_due ht henabled
    obtain ⟨before, first, after, heq⟩ := split_of_mem_due hdue hn
    exact .inl ⟨(hzero before after n first heq ht henabled).1, or_iff_not_imp_left.mpr
      fun hmaster => ⟨hnot hmaster 1 (.inl rfl), hnot hmaster 2 (.inr rfl)⟩⟩
  · intro h t ht henabled
    obtain ⟨n, hn, rfl⟩ := MainState.mem_due ht henabled
    obtain ⟨before, first, after, heq⟩ := split_of_mem_due hdue hn
    refine (htests.ownAddress_iff hlog hnodup heq ht).mpr ?_
    obtain ⟨hseq, hmaster⟩ | hone | ⟨hnone, hnone'⟩ := h
    · refine .inl ⟨hseq, ?_⟩
      rw [firstMaster]
      split_ifs with hbefore
      · subst hbefore
        have hhead := (head?_due hdue n).mpr ⟨first, after, heq⟩
        refine hmaster.resolve_right fun hnot => ?_
        obtain hone | htwo := ht
        · exact hnot.1 (hhead.trans (congrArg some (Nat.cast_injective hone)))
        · exact hnot.2 (hhead.trans (congrArg some (Nat.cast_injective htwo)))
      · rfl
    · exact .inr hone
    · obtain ht | ht := ht
      · exact absurd ((ht ▸ henabled).symm.trans hnone) nofun
      · exact absurd ((ht ▸ henabled).symm.trans hnone') nofun

/-! ### Passes of two CPUs -/

instance decidableStartsPass (t : MainState × CpuState) : Decidable (StartsPass t) :=
  inferInstanceAs (Decidable (_ ∧ _))

/-- The first pass that counts, which starts after some quiet steps of two CPUs, with test 1
enabled, and ends after some more. -/
def quietPass (mode : CpuMode) (before after : ℕ) :
    Option ((MainState × CpuState) × (MainState × CpuState)) := do
  let t₀ ← mainRun twoCpuConfig (List.replicate before quietInput) (mainInit (fun n => n = 1) mode)
  let u ← mainStep twoCpuConfig quietInput t₀
  let t₁ ← mainRun twoCpuConfig (List.replicate after quietInput) u
  if StartsPass t₀ ∧ t₁.1.log.getLast? = some (.endPass 1) ∧
      t₀.1.log.length < t₁.1.log.length ∧
      Executions.Always (mainStep twoCpuConfig) (fun _ t => ¬StartsPass t)
        (List.replicate after quietInput) u
  then some (t₀, t₁) else none

theorem wholePass_of_quietPass {mode : CpuMode} {before after : ℕ} {t₀ t₁ : MainState × CpuState}
    (h : quietPass mode before after = some (t₀, t₁)) :
    Reachable twoCpuConfig Input.Regular t₀ ∧
      WholePass twoCpuConfig (List.replicate (after + 1) quietInput) t₀ t₁ := by
  simp only [quietPass, Option.bind_eq_bind, Option.bind_eq_some_iff, Option.ite_none_right_eq_some,
    Option.some.injEq, Prod.mk.injEq] at h
  obtain ⟨t₀, hreach, u, hu, t₁, hrun, ⟨hstart, hlast, hlen, halways⟩, rfl, rfl⟩ := h
  have hfirst : mainRun twoCpuConfig (List.replicate (after + 1) quietInput) t₀ = some t₁ := by
    rw [List.replicate_succ]
    exact Executions.exec_cons_eq_some.mpr ⟨u, hu, hrun⟩
  refine ⟨⟨_, _, isInitial_mainInit _ _, fun inp hinp =>
    List.eq_of_mem_replicate hinp ▸ Input.regular_quietInput, hreach⟩,
    hstart, hfirst, fun before' inp after' t heq hne ht => ?_, ?_⟩
  · obtain ⟨inp₀, before', rfl⟩ := List.exists_cons_of_ne_nil hne
    rw [List.replicate_succ, List.cons_append] at heq
    obtain ⟨rfl, htail⟩ := List.cons.inj heq
    obtain ⟨u', hu', ht⟩ := Executions.exec_cons_eq_some.mp ht
    obtain rfl := Option.some.inj (hu.symm.trans hu')
    exact halways before' inp after' t htail ht
  · obtain ⟨events, hevents⟩ := mainRun_log hfirst
    obtain rfl | ⟨events, e, rfl⟩ := events.eq_nil_or_concat
    · rw [List.append_nil] at hevents
      exact absurd (congrArg List.length hevents) hlen.ne
    · refine ⟨events, 1, ?_⟩
      rw [← hevents, List.concat_eq_append, ← List.append_assoc, List.getLast?_concat] at hlast
      rw [← hevents, List.concat_eq_append, Option.some.inj hlast]

theorem Input.noSkip_quietInput : quietInput.NoSkip := fun _ hactions =>
  absurd hactions List.not_mem_nil

set_option maxRecDepth 20000 in
/-- In SEQ mode both CPUs run test 1 in the first pass that counts, in both windows. -/
theorem ownAddressTests_iff_seq :
    ∃ t₀ t₁ events, WholePass twoCpuConfig (List.replicate 71 quietInput) t₀ t₁ ∧
      t₀.1.dummyRun = false ∧ twoCpuConfig.testedWindows t₀.1 1 = [0, 1] ∧
      t₁.1.log = t₀.1.log ++ events ∧ OwnAddressTestsRun twoCpuConfig t₀.1 events := by
  have hpass : ((quietPass .seq 102 70).map fun t => t.1.1.dummyRun || t.1.1.cpuMode != .seq ||
      t.1.1.masterCpu != 0 || t.1.1.limits.lower != 0 || t.1.1.limits.upper != 0x8000) =
        some false := by decide
  obtain ⟨⟨t₀, t₁⟩, hpass, hstate⟩ := Option.map_eq_some_iff.mp hpass
  simp only [Bool.or_eq_false_iff, bne_eq_false_iff_eq] at hstate
  obtain ⟨⟨⟨⟨hdummy, hmode⟩, hmaster⟩, hlower⟩, hupper⟩ := hstate
  obtain ⟨⟨inps, t, hinit, hinps, hreach⟩, hwhole⟩ := wholePass_of_quietPass hpass
  obtain ⟨events, hevents⟩ := mainRun_log hwhole.run
  have hlimits : t₀.1.limits = ⟨0, 0x8000⟩ := by
    rw [← hlower, ← hupper]
  refine ⟨t₀, t₁, events, hwhole, hdummy, ?_, hevents.symm, ?_⟩
  · rw [MainConfig.testedWindows, hlimits, hdummy]
    decide
  · exact (ownAddressTests_iff ⟨inps, t, hinit, fun inp hinp => (hinps inp hinp).beyond, hreach⟩
      (fun inp hinp => List.eq_of_mem_replicate hinp ▸ by decide)
      (fun inp hinp => List.eq_of_mem_replicate hinp ▸ Input.noSkip_quietInput) hwhole
      hevents.symm).mpr (.inl ⟨hmode, .inl hmaster⟩)

set_option maxRecDepth 20000 in
/-- In PAR mode the other CPU does not run test 1, and nobody skips it. -/
theorem not_ownAddressTestsRun_par :
    ¬∀ (cfg : MainConfig) (inps : List Input) (t₀ t₁ : MainState × CpuState)
        (events : List MainEvent), Reachable cfg Input.Regular t₀ →
      (∀ inp ∈ inps, inp.Regular) → (∀ inp ∈ inps, inp.NoSkip) → t₀.1.dummyRun = false →
      WholePass cfg inps t₀ t₁ → t₁.1.log = t₀.1.log ++ events →
      OwnAddressTestsRun cfg t₀.1 events := by
  intro h
  have hpass : ((quietPass .par 84 51).map fun t => t.1.1.dummyRun || !t.1.1.enabled 1 ||
      t.2.1.log.contains (.endStage 1 0 1)) = some false := by decide
  obtain ⟨⟨t₀, t₁⟩, hpass, hstate⟩ := Option.map_eq_some_iff.mp hpass
  simp only [Bool.or_eq_false_iff, Bool.not_eq_false'] at hstate
  obtain ⟨⟨hdummy, henabled⟩, hend⟩ := hstate
  obtain ⟨hreach, hwhole⟩ := wholePass_of_quietPass hpass
  obtain ⟨events, hevents⟩ := mainRun_log hwhole.run
  have hruns := h _ _ t₀ t₁ events hreach (fun inp hinp =>
    List.eq_of_mem_replicate hinp ▸ Input.regular_quietInput) (fun inp hinp =>
    List.eq_of_mem_replicate hinp ▸ Input.noSkip_quietInput) hdummy hwhole hevents.symm 1
    (.inl rfl) henabled 1 (by decide) 0 Nat.one_pos
  have hmem : .endStage 1 0 1 ∈ t₁.1.log := hevents ▸ List.mem_append_right _
    (List.count_pos_iff.mp (by rw [hruns.count]; exact Nat.one_pos))
  exact absurd ((List.contains_iff_mem.mpr hmem).symm.trans hend) nofun

end Memtest
